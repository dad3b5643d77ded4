import UringDb.Tpcc.Types

/-!
# The keys of the TPC-C records

`tpcc/schema.hpp`. `foldKey` and `unfoldKey` go through the fields of a key in order, and
`maxFoldLength` adds up their sizes; so each record type is given by the fields it goes through.
-/
namespace UringDb.Tpcc

open Bytes

namespace Warehouse

structure Key where
  w_id : Integer
deriving DecidableEq

def fields : Key ≃ Integer := ⟨fun k => k.w_id, fun w_id => ⟨w_id⟩, fun _ => rfl, fun _ => rfl⟩

def key : Codec Byte Key := integer.via fields

end Warehouse

namespace District

structure Key where
  d_w_id : Integer
  d_id : Integer
deriving DecidableEq

def fields : Key ≃ Integer × Integer :=
  ⟨fun k => (k.d_w_id, k.d_id), fun (d_w_id, d_id) => ⟨d_w_id, d_id⟩, fun _ => rfl, fun _ => rfl⟩

def key : Codec Byte Key := (integer.pair integer).via fields

end District

namespace Customer

structure Key where
  c_w_id : Integer
  c_d_id : Integer
  c_id : Integer
deriving DecidableEq

def fields : Key ≃ Integer × Integer × Integer :=
  ⟨fun k => (k.c_w_id, k.c_d_id, k.c_id), fun (c_w_id, c_d_id, c_id) => ⟨c_w_id, c_d_id, c_id⟩,
    fun _ => rfl, fun _ => rfl⟩

def key : Codec Byte Key := (integer.pair (integer.pair integer)).via fields

end Customer

namespace CustomerWdl

structure Key where
  c_w_id : Integer
  c_d_id : Integer
  c_last : Varchar 16
  c_first : Varchar 16
deriving DecidableEq

def fields : Key ≃ Integer × Integer × Varchar 16 × Varchar 16 :=
  ⟨fun k => (k.c_w_id, k.c_d_id, k.c_last, k.c_first),
    fun (c_w_id, c_d_id, c_last, c_first) => ⟨c_w_id, c_d_id, c_last, c_first⟩,
    fun _ => rfl, fun _ => rfl⟩

def key : Codec Byte Key :=
  (integer.pair (integer.pair ((varchar 16).pair (varchar 16)))).via fields

end CustomerWdl

namespace History

structure Key where
  thread_id : Integer
  h_pk : Integer
deriving DecidableEq

def fields : Key ≃ Integer × Integer :=
  ⟨fun k => (k.thread_id, k.h_pk), fun (thread_id, h_pk) => ⟨thread_id, h_pk⟩,
    fun _ => rfl, fun _ => rfl⟩

def key : Codec Byte Key := (integer.pair integer).via fields

end History

namespace Neworder

structure Key where
  no_w_id : Integer
  no_d_id : Integer
  no_o_id : Integer
deriving DecidableEq

def fields : Key ≃ Integer × Integer × Integer :=
  ⟨fun k => (k.no_w_id, k.no_d_id, k.no_o_id),
    fun (no_w_id, no_d_id, no_o_id) => ⟨no_w_id, no_d_id, no_o_id⟩, fun _ => rfl, fun _ => rfl⟩

def key : Codec Byte Key := (integer.pair (integer.pair integer)).via fields

end Neworder

namespace Order

structure Key where
  o_w_id : Integer
  o_d_id : Integer
  o_id : Integer
deriving DecidableEq

def fields : Key ≃ Integer × Integer × Integer :=
  ⟨fun k => (k.o_w_id, k.o_d_id, k.o_id), fun (o_w_id, o_d_id, o_id) => ⟨o_w_id, o_d_id, o_id⟩,
    fun _ => rfl, fun _ => rfl⟩

def key : Codec Byte Key := (integer.pair (integer.pair integer)).via fields

end Order

namespace OrderWdc

structure Key where
  o_w_id : Integer
  o_d_id : Integer
  o_c_id : Integer
  o_id : Integer
deriving DecidableEq

def fields : Key ≃ Integer × Integer × Integer × Integer :=
  ⟨fun k => (k.o_w_id, k.o_d_id, k.o_c_id, k.o_id),
    fun (o_w_id, o_d_id, o_c_id, o_id) => ⟨o_w_id, o_d_id, o_c_id, o_id⟩,
    fun _ => rfl, fun _ => rfl⟩

def key : Codec Byte Key := (integer.pair (integer.pair (integer.pair integer))).via fields

end OrderWdc

namespace Orderline

structure Key where
  ol_w_id : Integer
  ol_d_id : Integer
  ol_o_id : Integer
  ol_number : Integer
deriving DecidableEq

def fields : Key ≃ Integer × Integer × Integer × Integer :=
  ⟨fun k => (k.ol_w_id, k.ol_d_id, k.ol_o_id, k.ol_number),
    fun (ol_w_id, ol_d_id, ol_o_id, ol_number) => ⟨ol_w_id, ol_d_id, ol_o_id, ol_number⟩,
    fun _ => rfl, fun _ => rfl⟩

def key : Codec Byte Key := (integer.pair (integer.pair (integer.pair integer))).via fields

end Orderline

namespace Item

structure Key where
  i_id : Integer
deriving DecidableEq

def fields : Key ≃ Integer := ⟨fun k => k.i_id, fun i_id => ⟨i_id⟩, fun _ => rfl, fun _ => rfl⟩

def key : Codec Byte Key := integer.via fields

end Item

namespace Stock

structure Key where
  s_w_id : Integer
  s_i_id : Integer
deriving DecidableEq

def fields : Key ≃ Integer × Integer :=
  ⟨fun k => (k.s_w_id, k.s_i_id), fun (s_w_id, s_i_id) => ⟨s_w_id, s_i_id⟩,
    fun _ => rfl, fun _ => rfl⟩

def key : Codec Byte Key := (integer.pair integer).via fields

end Stock

/-! ### All record types -/

inductive Record
  | warehouse | district | customer | customerWdl | history | neworder | order | orderWdc
  | orderline | item | stock
deriving DecidableEq

namespace Record

def Key : Record → Type
  | warehouse => Warehouse.Key
  | district => District.Key
  | customer => Customer.Key
  | customerWdl => CustomerWdl.Key
  | history => History.Key
  | neworder => Neworder.Key
  | order => Order.Key
  | orderWdc => OrderWdc.Key
  | orderline => Orderline.Key
  | item => Item.Key
  | stock => Stock.Key

def key : (r : Record) → Codec Byte r.Key
  | warehouse => Warehouse.key
  | district => District.key
  | customer => Customer.key
  | customerWdl => CustomerWdl.key
  | history => History.key
  | neworder => Neworder.key
  | order => Order.key
  | orderWdc => OrderWdc.key
  | orderline => Orderline.key
  | item => Item.key
  | stock => Stock.key

def foldKey (r : Record) (k : r.Key) : List Byte := r.key.encode k

def unfoldKey (r : Record) (input : List Byte) : Option (r.Key × Nat) := r.key.decode input

def maxFoldLength (r : Record) : Nat := r.key.size

/-- No string of the key contains a zero byte. -/
def NoZero (r : Record) (k : r.Key) : Prop := r.key.Valid k

/-- Lexicographic order of the typed fields. -/
def Less (r : Record) (k k' : r.Key) : Prop := r.key.Less k k'

theorem lawful (r : Record) : r.key.Lawful := by
  have two := lawful_integer.pair lawful_integer
  have three := lawful_integer.pair two
  have four := lawful_integer.pair three
  have names := (lawful_varchar 16).pair (lawful_varchar 16)
  cases r with
  | warehouse => exact lawful_integer.via _
  | district => exact two.via _
  | customer => exact three.via _
  | customerWdl => exact (lawful_integer.pair (lawful_integer.pair names)).via _
  | history => exact two.via _
  | neworder => exact three.via _
  | order => exact three.via _
  | orderWdc => exact four.via _
  | orderline => exact four.via _
  | item => exact lawful_integer.via _
  | stock => exact two.via _

/-- **Folding embeds the keys in the byte strings**: it has an inverse, stays in its bounds, and
keeps the order. -/
theorem foldKey_embeds (r : Record) (k k' : r.Key) (clean : r.NoZero k) (clean' : r.NoZero k') :
    r.unfoldKey (r.foldKey k) = some (k, (r.foldKey k).length) ∧
      (r.foldKey k).length ≤ r.maxFoldLength ∧
      (less (r.foldKey k) (r.foldKey k') = true ↔ r.Less k k') ∧
      (r.foldKey k = r.foldKey k' → k = k') := by
  refine ⟨r.lawful.decode_encode clean, r.lawful.short clean, ?_, ?_⟩
  · rw [less_iff]
    exact r.lawful.encode_lt_encode clean clean'
  · exact r.lawful.encode_injective clean clean'

/-- A last name that is a prefix of the other one comes first, whatever the first names are. -/
theorem foldKey_embeds_names :
    let ann : CustomerWdl.Key := ⟨1, -1, ⟨[65, 110], by decide⟩, ⟨[90], by decide⟩⟩
    let anna : CustomerWdl.Key := ⟨1, -1, ⟨[65, 110, 110], by decide⟩, ⟨[], by decide⟩⟩
    (foldKey .customerWdl ann).length = 13 ∧
      unfoldKey .customerWdl (foldKey .customerWdl ann) =
        some (ann, (foldKey .customerWdl ann).length) ∧
      less (foldKey .customerWdl ann) (foldKey .customerWdl anna) = true := by
  intro ann anna
  have plain : (0 : Byte) ∉ ann.c_last.data ∧ 0 ∉ ann.c_first.data := by decide
  have plain' : (0 : Byte) ∉ anna.c_last.data ∧ 0 ∉ anna.c_first.data := by decide
  have before : ann.c_last.less anna.c_last = true := by decide
  have embeds :=
    foldKey_embeds .customerWdl ann anna ⟨trivial, trivial, plain⟩ ⟨trivial, trivial, plain'⟩
  exact ⟨rfl, embeds.1, embeds.2.2.1.mpr (Or.inr ⟨rfl, Or.inr ⟨rfl, Or.inl before⟩⟩)⟩

end Record

end UringDb.Tpcc
