import UringDb.Lib.OrderedMap
import UringDb.Lib.Run
import UringDb.Tpcc.Schema

/-!
# Orders of the TPC-C workload

The loader and the transactions `newOrder` and `delivery` of `tpcc/tpcc_workload.hpp`. A table
adapter is an ordered map; its keys are in the order of their folded form. `Numeric` is a type
with the operations that the source makes on doubles, except for the number of order lines, which
is an integer. Random draws of the loader are arguments. A transaction that misses a row it needs
stops at an assertion; it answers `none`.
-/
namespace UringDb.Tpcc

/-! ### Keys in order -/

def rank2 (x : Integer × Integer) : ℤ ×ₗ ℤ := toLex (x.1.toInt, x.2.toInt)

def rank3 (x : Integer × Integer × Integer) : ℤ ×ₗ ℤ ×ₗ ℤ := toLex (x.1.toInt, rank2 x.2)

def rank4 (x : Integer × Integer × Integer × Integer) : ℤ ×ₗ ℤ ×ₗ ℤ ×ₗ ℤ :=
  toLex (x.1.toInt, rank3 x.2)

theorem rank2_injective : Function.Injective rank2 := by
  rintro ⟨a, b⟩ ⟨a', b'⟩ same
  obtain ⟨first, second⟩ := Prod.ext_iff.mp (toLex_inj.mp same)
  exact Prod.ext (Int32.toInt_inj.mp first) (Int32.toInt_inj.mp second)

theorem rank3_injective : Function.Injective rank3 := by
  rintro ⟨a, b⟩ ⟨a', b'⟩ same
  obtain ⟨first, second⟩ := Prod.ext_iff.mp (toLex_inj.mp same)
  exact Prod.ext (Int32.toInt_inj.mp first) (rank2_injective second)

theorem rank4_injective : Function.Injective rank4 := by
  rintro ⟨a, b⟩ ⟨a', b'⟩ same
  obtain ⟨first, second⟩ := Prod.ext_iff.mp (toLex_inj.mp same)
  exact Prod.ext (Int32.toInt_inj.mp first) (rank3_injective second)

instance Warehouse.Key.linearOrder : LinearOrder Warehouse.Key :=
  LinearOrder.lift' (fun k => k.w_id.toInt) fun _ _ same =>
    Warehouse.fields.injective (Int32.toInt_inj.mp same)

instance District.Key.linearOrder : LinearOrder District.Key :=
  LinearOrder.lift' (fun k => rank2 (District.fields k))
    (rank2_injective.comp District.fields.injective)

instance Customer.Key.linearOrder : LinearOrder Customer.Key :=
  LinearOrder.lift' (fun k => rank3 (Customer.fields k))
    (rank3_injective.comp Customer.fields.injective)

instance Neworder.Key.linearOrder : LinearOrder Neworder.Key :=
  LinearOrder.lift' (fun k => rank3 (Neworder.fields k))
    (rank3_injective.comp Neworder.fields.injective)

instance Order.Key.linearOrder : LinearOrder Order.Key :=
  LinearOrder.lift' (fun k => rank3 (Order.fields k)) (rank3_injective.comp Order.fields.injective)

instance OrderWdc.Key.linearOrder : LinearOrder OrderWdc.Key :=
  LinearOrder.lift' (fun k => rank4 (OrderWdc.fields k))
    (rank4_injective.comp OrderWdc.fields.injective)

instance Orderline.Key.linearOrder : LinearOrder Orderline.Key :=
  LinearOrder.lift' (fun k => rank4 (Orderline.fields k))
    (rank4_injective.comp Orderline.fields.injective)

instance Item.Key.linearOrder : LinearOrder Item.Key :=
  LinearOrder.lift' (fun k => k.i_id.toInt) fun _ _ same =>
    Item.fields.injective (Int32.toInt_inj.mp same)

instance Stock.Key.linearOrder : LinearOrder Stock.Key :=
  LinearOrder.lift' (fun k => rank2 (Stock.fields k)) (rank2_injective.comp Stock.fields.injective)

/-! ### Tables -/

/-- Arithmetic of `double`. -/
class Numeric (N : Type) extends Add N, Sub N, Mul N where
  ofInteger : Integer → N
  ge : N → N → Bool

structure WarehouseRow (N : Type) where
  w_tax : N

structure DistrictRow (N : Type) where
  d_tax : N
  d_next_o_id : Integer

structure CustomerRow (N : Type) where
  c_discount : N
  c_balance : N
  c_delivery_cnt : N

structure OrderRow (N : Type) where
  o_c_id : Integer
  o_entry_d : Timestamp
  o_carrier_id : Integer
  o_ol_cnt : Integer
  o_all_local : N

structure OrderlineRow (N : Type) where
  ol_i_id : Integer
  ol_supply_w_id : Integer
  ol_delivery_d : Timestamp
  ol_quantity : N
  ol_amount : N
  ol_dist_info : Varchar 24

structure ItemRow (N : Type) where
  i_price : N

structure StockRow (N : Type) where
  s_quantity : N
  /-- `s_dist_01` to `s_dist_10`. -/
  s_dist : Integer → Varchar 24
  s_ytd : N
  s_order_cnt : N
  s_remote_cnt : N

/-- The tables that the loader of orders and the two transactions use. -/
structure Db (N : Type) where
  warehouse : OrderedMap Warehouse.Key (WarehouseRow N)
  district : OrderedMap District.Key (DistrictRow N)
  customer : OrderedMap Customer.Key (CustomerRow N)
  neworder : OrderedMap Neworder.Key Unit
  order : OrderedMap Order.Key (OrderRow N)
  orderWdc : OrderedMap OrderWdc.Key Unit
  orderline : OrderedMap Orderline.Key (OrderlineRow N)
  item : OrderedMap Item.Key (ItemRow N)
  stock : OrderedMap Stock.Key (StockRow N)

structure Config where
  orderWdcIndex : Bool
  tpccRemove : Bool
  manuallyHandleIsolationAnomalies : Bool

variable {N : Type} [Numeric N]

/-- The values of `i` in `for (Integer i = low; i <= high; i++)`. -/
def integers (low high : Integer) : List Integer :=
  (List.range (high.toInt + 1 - low.toInt).toNat).map fun k : Nat => Int32.ofInt (low.toInt + k)

def minInteger : Integer := Int32.minValue

def currentTimestamp : Timestamp := 1

namespace Db

def insertOrder (db : Db N) (cfg : Config) (key : Order.Key) (row : OrderRow N) : Db N :=
  { db with
    order := db.order.insert key row
    orderWdc := if cfg.orderWdcIndex
      then db.orderWdc.insert ⟨key.o_w_id, key.o_d_id, row.o_c_id, key.o_id⟩ ()
      else db.orderWdc }

def insertOrderline (db : Db N) (key : Orderline.Key) (row : OrderlineRow N) : Db N :=
  { db with orderline := db.orderline.insert key row }

def insertNeworder (db : Db N) (key : Neworder.Key) : Db N :=
  { db with neworder := db.neworder.insert key () }

/-! ### Loader -/

def loadDistrict (db : Db N) (w_id : Integer) (tax : Integer → N) (i : Integer) : Db N :=
  { db with district := db.district.insert ⟨w_id, i⟩ { d_tax := tax i, d_next_o_id := 3001 } }

def loadDistrinct (db : Db N) (w_id : Integer) (tax : Integer → N) : Db N :=
  (integers 1 10).foldl (fun db i => db.loadDistrict w_id tax i) db

/-- The random draws of `loadOrders`. -/
structure Draws (N : Type) where
  /-- `urand(0, i)`. -/
  swap : (i : Nat) → Fin (i + 1)
  carrier : Integer → Fin 10
  ol_cnt : Integer → Fin 10
  item : Integer → Integer → Fin 100000
  amount : Integer → Integer → N
  dist : Integer → Integer → Varchar 24

/-- `std::swap(ids[j], ids[i])`. -/
def swap (ids : List Integer) (j i : Nat) : List Integer :=
  match ids[j]?, ids[i]? with
  | some a, some b => (ids.set j b).set i a
  | _, _ => ids

def shuffle (draws : Draws N) : Nat → List Integer → List Integer
  | 0, ids => ids
  | i + 1, ids => shuffle draws i (swap ids (draws.swap i) i)

def customerIds (draws : Draws N) : List Integer := shuffle draws 3000 (integers 1 3000)

def loadedLine (draws : Draws N) (w_id o_id ol_number : Integer) : OrderlineRow N where
  ol_i_id := Int32.ofNat (draws.item o_id ol_number) + 1
  ol_supply_w_id := w_id
  -- orders before 2101 are delivered
  ol_delivery_d := if o_id < 2101 then currentTimestamp else 0
  ol_quantity := Numeric.ofInteger 5
  ol_amount := if o_id < 2101 then Numeric.ofInteger 0 else draws.amount o_id ol_number
  ol_dist_info := draws.dist o_id ol_number

def loadedOrder (draws : Draws N) (o_id o_c_id : Integer) : OrderRow N where
  o_c_id := o_c_id
  o_entry_d := currentTimestamp
  o_carrier_id := if o_id < 2101 then Int32.ofNat (draws.carrier o_id) + 1 else 0
  o_ol_cnt := Int32.ofNat (draws.ol_cnt o_id) + 5
  o_all_local := Numeric.ofInteger 1

/-- One turn of the inner loop of `loadOrders`. -/
def loadOrderline (draws : Draws N) (w_id d_id o_id : Integer) (db : Db N) (ol_number : Integer) :
    Db N :=
  db.insertOrderline ⟨w_id, d_id, o_id, ol_number⟩ (loadedLine draws w_id o_id ol_number)

/-- One turn of the first loop of `loadOrders`, at an order with its customer. -/
def loadOrder (cfg : Config) (draws : Draws N) (w_id d_id : Integer) (db : Db N)
    (o : Integer × Integer) : Db N :=
  let row := loadedOrder draws o.1 o.2
  (integers 1 row.o_ol_cnt).foldl (loadOrderline draws w_id d_id o.1)
    (db.insertOrder cfg ⟨w_id, d_id, o.1⟩ row)

def loadOrders (db : Db N) (cfg : Config) (draws : Draws N) (w_id d_id : Integer) : Db N :=
  let db := ((integers 1 3000).zip (customerIds draws)).foldl (loadOrder cfg draws w_id d_id) db
  (integers 2100 3000).foldl (fun db i => db.insertNeworder ⟨w_id, d_id, i⟩) db

/-- The districts of a warehouse with their orders. -/
def loadWarehouse (cfg : Config) (tax : Integer → Integer → N)
    (draws : Integer → Integer → Draws N) (db : Db N) (w_id : Integer) : Db N :=
  (integers 1 10).foldl (fun db d_id => db.loadOrders cfg (draws w_id d_id) w_id d_id)
    (db.loadDistrinct w_id (tax w_id))

def load (db : Db N) (cfg : Config) (warehouseCount : Integer) (tax : Integer → Integer → N)
    (draws : Integer → Integer → Draws N) : Db N :=
  (integers 1 warehouseCount).foldl (loadWarehouse cfg tax draws) db

/-! ### New orders -/

/-- The entries with one index of the four vectors that `newOrder` gets. -/
structure Line where
  lineNumber : Integer
  supware : Integer
  itemid : Integer
  qty : Integer
deriving DecidableEq

def updateStock (w_id : Integer) (db : Db N) (line : Line) : Db N :=
  let qty : N := Numeric.ofInteger line.qty
  { db with stock := db.stock.modify ⟨line.supware, line.itemid⟩ fun row =>
      { row with
        s_quantity := if Numeric.ge row.s_quantity (Numeric.ofInteger (line.qty + 10))
          then row.s_quantity - qty
          else row.s_quantity + Numeric.ofInteger 91 - qty
        s_remote_cnt := row.s_remote_cnt + Numeric.ofInteger (if line.supware ≠ w_id then 1 else 0)
        s_order_cnt := row.s_order_cnt + Numeric.ofInteger 1
        s_ytd := row.s_ytd + qty } }

def insertLine (w_id d_id o_id : Integer) (w_tax d_tax c_discount : N) (db : Db N) (line : Line) :
    Option (Db N) := do
  let item ← db.item.lookup ⟨line.itemid⟩
  let stock ← db.stock.lookup ⟨w_id, line.itemid⟩
  -- the switch over the district exits the program for any other number
  if 1 ≤ d_id ∧ d_id ≤ 10 then
    some (db.insertOrderline ⟨w_id, d_id, o_id, line.lineNumber⟩
      { ol_i_id := line.itemid
        ol_supply_w_id := line.supware
        ol_delivery_d := 0
        ol_quantity := Numeric.ofInteger line.qty
        ol_amount := Numeric.ofInteger line.qty * item.i_price *
          (Numeric.ofInteger 1 + w_tax + d_tax) * (Numeric.ofInteger 1 - c_discount)
        ol_dist_info := stock.s_dist d_id })
  else none

def insertLines (w_id d_id o_id : Integer) (w_tax d_tax c_discount : N) :
    List Line → Db N → Option (Db N)
  | [], db => some db
  | line :: rest, db => (db.insertLine w_id d_id o_id w_tax d_tax c_discount line).bind
      (insertLines w_id d_id o_id w_tax d_tax c_discount rest)

/-- `rec.d_next_o_id++`. -/
def advanceDistrict (db : Db N) (w_id d_id : Integer) : Db N :=
  { db with district := db.district.modify ⟨w_id, d_id⟩ fun row =>
      { row with d_next_o_id := row.d_next_o_id + 1 } }

def orderRow (w_id c_id : Integer) (lines : List Line) (timestamp : Timestamp) : OrderRow N where
  o_c_id := c_id
  o_entry_d := timestamp
  o_carrier_id := 0
  o_ol_cnt := Int32.ofNat lines.length
  o_all_local := Numeric.ofInteger (if lines.any fun line => line.supware ≠ w_id then 0 else 1)

def newOrder (db : Db N) (cfg : Config) (w_id d_id c_id : Integer) (lines : List Line)
    (timestamp : Timestamp) : Option (Db N) := do
  let warehouse ← db.warehouse.lookup ⟨w_id⟩
  let customer ← db.customer.lookup ⟨w_id, d_id, c_id⟩
  let district ← db.district.lookup ⟨w_id, d_id⟩
  let o_id := district.d_next_o_id
  let db := db.advanceDistrict w_id d_id
  let db := db.insertOrder cfg ⟨w_id, d_id, o_id⟩ (orderRow w_id c_id lines timestamp)
  let db := db.insertNeworder ⟨w_id, d_id, o_id⟩
  let db := lines.foldl (updateStock w_id) db
  db.insertLines w_id d_id o_id warehouse.w_tax district.d_tax customer.c_discount lines

/-! ### Deliveries -/

/-- The oldest new order of the district, or `minInteger`. -/
def nextDelivery (db : Db N) (w_id d_id : Integer) : Integer :=
  match db.neworder.first ⟨w_id, d_id, minInteger⟩ with
  | none => minInteger
  | some (key, _) =>
    if key.no_w_id = w_id ∧ key.no_d_id = d_id then key.no_o_id else minInteger

/-- What the scans for an order find in the end; `none` is a `continue`. -/
def scanOrder (db : Db N) (key : Order.Key) : Option (OrderRow N) :=
  match db.order.first key with
  | none => none
  | some (found, row) =>
    -- the first scan takes any order, the second one only the right one
    if row.o_ol_cnt = minInteger then none else if found = key then some row else none

/-- All order lines of the order have been inserted. -/
def linesComplete (db : Db N) (key : Orderline.Key) : Bool :=
  match db.orderline.first key with
  | none => false
  | some (found, _) => found == key

def deliverLine (datetime : Timestamp) (w_id d_id o_id : Integer) (db : Db N)
    (ol_number : Integer) : Db N :=
  { db with orderline := db.orderline.modify ⟨w_id, d_id, o_id, ol_number⟩ fun row =>
      { row with ol_delivery_d := datetime } }

/-- The sum of the amounts that the loop over the order lines sees. -/
def lineTotal (db : Db N) (w_id d_id o_id ol_cnt : Integer) : N :=
  (integers 1 ol_cnt).foldl (fun total ol_number =>
    match db.orderline.lookup ⟨w_id, d_id, o_id, ol_number⟩ with
    | none => total
    | some row => total + row.ol_amount) (Numeric.ofInteger 0)

/-- The end of `delivery` for one district: the order lines and the customer. -/
def settle (db : Db N) (cfg : Config) (datetime : Timestamp) (key : Order.Key) (row : OrderRow N) :
    Db N :=
  if cfg.manuallyHandleIsolationAnomalies ∧
      db.linesComplete ⟨key.o_w_id, key.o_d_id, key.o_id, row.o_ol_cnt⟩ = false then db
  else
    let total := db.lineTotal key.o_w_id key.o_d_id key.o_id row.o_ol_cnt
    let db := (integers 1 row.o_ol_cnt).foldl
      (deliverLine datetime key.o_w_id key.o_d_id key.o_id) db
    { db with customer := db.customer.modify ⟨key.o_w_id, key.o_d_id, row.o_c_id⟩ fun customer =>
        { customer with
          c_balance := customer.c_balance + total
          c_delivery_cnt := customer.c_delivery_cnt + Numeric.ofInteger 1 } }

def eraseNeworder (db : Db N) (cfg : Config) (key : Order.Key) : Db N :=
  if cfg.tpccRemove
  then { db with neworder := db.neworder.erase ⟨key.o_w_id, key.o_d_id, key.o_id⟩ }
  else db

def setCarrier (db : Db N) (carrier_id : Integer) (key : Order.Key) : Db N :=
  { db with order := db.order.modify key fun row => { row with o_carrier_id := carrier_id } }

/-- `delivery` of an order that the scan for new orders has found. -/
def deliverOrder (db : Db N) (cfg : Config) (carrier_id : Integer) (datetime : Timestamp)
    (key : Order.Key) : Option (Db N) :=
  let db := db.eraseNeworder cfg key
  if cfg.manuallyHandleIsolationAnomalies then
    match db.scanOrder key with
    | none => some db
    | some row => some ((db.setCarrier carrier_id key).settle cfg datetime key row)
  else do
    let row ← db.order.lookup key
    return (db.setCarrier carrier_id key).settle cfg datetime key row

def deliverDistrict (cfg : Config) (w_id carrier_id : Integer) (datetime : Timestamp) (db : Db N)
    (d_id : Integer) : Option (Db N) :=
  let o_id := db.nextDelivery w_id d_id
  if o_id = minInteger then some db
  else db.deliverOrder cfg carrier_id datetime ⟨w_id, d_id, o_id⟩

def deliverDistricts (cfg : Config) (w_id carrier_id : Integer) (datetime : Timestamp) :
    List Integer → Db N → Option (Db N)
  | [], db => some db
  | d_id :: rest, db => (deliverDistrict cfg w_id carrier_id datetime db d_id).bind
      (deliverDistricts cfg w_id carrier_id datetime rest)

def delivery (db : Db N) (cfg : Config) (w_id carrier_id : Integer) (datetime : Timestamp) :
    Option (Db N) :=
  deliverDistricts cfg w_id carrier_id datetime (integers 1 10) db

end Db

/-! ### Histories -/

inductive Transaction where
  | newOrder (w_id d_id c_id : Integer) (lines : List Db.Line) (timestamp : Timestamp)
  | delivery (w_id carrier_id : Integer) (datetime : Timestamp)
deriving DecidableEq

def Transaction.exec (cfg : Config) (db : Db N) : Transaction → Option (Db N)
  | .newOrder w_id d_id c_id lines timestamp => db.newOrder cfg w_id d_id c_id lines timestamp
  | .delivery w_id carrier_id datetime => db.delivery cfg w_id carrier_id datetime

/-- A database whose orders are those of the loader. -/
structure Loaded (cfg : Config) (db : Db N) : Prop where
  loaded : ∃ (start : Db N) (warehouseCount : Integer) (tax : Integer → Integer → N)
    (draws : Integer → Integer → Db.Draws N),
    (∀ k, start.district.lookup k = none) ∧ (∀ k, start.neworder.lookup k = none) ∧
    (∀ k, start.order.lookup k = none) ∧ (∀ k, start.orderline.lookup k = none) ∧
    db = start.load cfg warehouseCount tax draws

def system (cfg : Config) (N : Type) [Numeric N] : System (Db N) Transaction where
  init := Loaded cfg
  step db transaction db' := transaction.exec cfg db = some db'

end UringDb.Tpcc
