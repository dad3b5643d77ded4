import UringDb.Lib.Bytes
import UringDb.Remotescan.Client

/-!
# The protocol of the remote scan

`remotescan/protocol.hpp`: a request is 16 bytes, and it is answered by as many bytes as it asks
for. Both servers keep the same account of a connection: the requests they accepted, the payloads
they read for them, and the requests that are finished.
-/
namespace UringDb.Remotescan

open UringDb.Bytes

/-! ### Requests in memory -/

def requestBytes : Nat := 16

/-- A request in memory: offset, length, and the reserved word, which is always zero. -/
def encode (request : ScanRequest) : List Byte :=
  store 8 request.offset ++ store 4 request.length ++ store 4 0

/-- The request in 16 bytes of memory; the reserved word is not looked at. -/
def decode (bytes : List Byte) : ScanRequest :=
  ⟨load (bytes.take 8), load ((bytes.drop 8).take 4)⟩

@[simp] theorem length_encode (request : ScanRequest) :
    (encode request).length = requestBytes := by
  simp [encode, requestBytes]

theorem decode_encode {request : ScanRequest} (offset : request.offset < 2 ^ 64)
    (length : request.length < 2 ^ 32) : decode (encode request) = request := by
  have first : (encode request).take 8 = store 8 request.offset := by
    rw [encode, List.append_assoc, List.take_left' (length_store 8 _)]
  have second : ((encode request).drop 8).take 4 = store 4 request.length := by
    rw [encode, List.append_assoc, List.drop_left' (length_store 8 _),
      List.take_left' (length_store 4 _)]
  rw [decode, first, second, load_store offset, load_store length]

/-! ### Answers on one connection -/

/-- What has happened on one connection: the requests that passed the checks, the payloads that
were read for them, and the requests that are finished. -/
structure Answers where
  accepted : List ScanRequest
  reads : List (ScanRequest × List Byte)
  finished : List (ScanRequest × List Byte)
deriving DecidableEq

namespace Answers

def none : Answers := ⟨[], [], []⟩

def accept (a : Answers) (request : ScanRequest) : Answers :=
  { a with accepted := a.accepted ++ [request] }

def read (a : Answers) (request : ScanRequest) (payload : List Byte) : Answers :=
  { a with reads := a.reads ++ [(request, payload)] }

/-- The last payload read has been sent to its end. -/
def finish (a : Answers) : Answers := { a with finished := a.reads }

end Answers

/-! ### The counters of a server -/

/-- `total_bytes` and `send_bytes` of a server, 64 bits wide. -/
structure Counters where
  totalBytes : Nat
  sendBytes : Nat
deriving DecidableEq

def Counters.send (c : Counters) (n : Nat) : Counters :=
  { c with sendBytes := (c.sendBytes + n) % 2 ^ 64 }

def Counters.finish (c : Counters) (length : Nat) : Counters :=
  { c with totalBytes := (c.totalBytes + length) % 2 ^ 64 }

end UringDb.Remotescan
