import UringDb.Tpcc.Orders

/-!
# Histories of transactions

The loader gives every district of a warehouse the orders 1 to 3000, of which those from 2100 on
wait for a delivery. From there the ledger of a district stays numbered in every history.
-/
namespace UringDb.Tpcc

variable {N : Type} [Numeric N]

/-- Orders that wait, but for the first one of the loader. -/
def isOpen (first o : Integer) : Prop := 2101 ≤ o ∧ first ≤ o

namespace Db

variable {db db' : Db N} {cfg : Config} {draws : Draws N} {w_id d_id o_id w d : Integer}

/-! ### Orders of the loader -/

theorem loadOrderlines_adds (numbers : List Integer) :
    Ledger.AddsLines (db.ledger w_id d_id)
      ((numbers.foldl (loadOrderline draws w_id d_id o_id) db).ledger w_id d_id) o_id
      (if o_id < 2101 then currentTimestamp else 0) numbers := by
  induction numbers generalizing db with
  | nil => exact .none _ _ _
  | cons number rest ih =>
    exact (ledger_insertOrderline (loadedLine draws w_id o_id number) number).append ih

theorem loadOrderlines_away (away : ¬(w = w_id ∧ d = d_id)) (numbers : List Integer) :
    (numbers.foldl (loadOrderline draws w_id d_id o_id) db).ledger w d = db.ledger w d :=
  foldl_unseen (fun db => db.ledger w d) (f := loadOrderline draws w_id d_id o_id)
    (fun _ _ _ => ledger_insertOrderline_away _ _ away) db

theorem loadOrder_away (away : ¬(w = w_id ∧ d = d_id)) (o : Integer × Integer) :
    (loadOrder cfg draws w_id d_id db o).ledger w d = db.ledger w d :=
  (loadOrderlines_away away _).trans (ledger_insertOrder_away _ away)

theorem loadOrder_filed (o : Integer × Integer) :
    Ledger.Filed (db.ledger w_id d_id) ((loadOrder cfg draws w_id d_id db o).ledger w_id d_id) o.1
      (loadedOrder draws o.1 o.2) (if o.1 < 2101 then currentTimestamp else 0) := by
  have added := @loadOrderlines_adds N _ (db.insertOrder cfg ⟨w_id, d_id, o.1⟩
    (loadedOrder draws o.1 o.2)) draws w_id d_id o.1 (integers 1 (loadedOrder draws o.1 o.2).o_ol_cnt)
  have lines := added.mem_line
  rw [ledger_insertOrder] at added lines
  simp only [mem_integers] at lines
  exact {
    order := fun q => congrFun added.order q
    line := added.line
    mem_line := lines
    date := added.date }

/-- The loader changes neither the next number nor the new orders before its last loop. -/
theorem loadOrder_rest (o : Integer × Integer) :
    ((loadOrder cfg draws w_id d_id db o).ledger w_id d_id).next = (db.ledger w_id d_id).next ∧
      ((loadOrder cfg draws w_id d_id db o).ledger w_id d_id).waiting =
        (db.ledger w_id d_id).waiting := by
  have added := @loadOrderlines_adds N _ (db.insertOrder cfg ⟨w_id, d_id, o.1⟩
    (loadedOrder draws o.1 o.2)) draws w_id d_id o.1 (integers 1 (loadedOrder draws o.1 o.2).o_ol_cnt)
  rw [ledger_insertOrder] at added
  exact ⟨added.next, added.waiting⟩

theorem draw_bounds (k : Fin 10) : Int32.ofNat k + 1 ≠ 0 ∧ 0 ≤ Int32.ofNat k + 5 := by
  revert k
  decide

theorem not_lt_iff_le (x y : Integer) : ¬x < y ↔ y ≤ x := by
  rw [Int32.lt_iff_toInt_lt, Int32.le_iff_toInt_le, not_lt]

theorem loadedOrder_carrier (o_id o_c_id : Integer) :
    (loadedOrder draws o_id o_c_id).o_carrier_id = 0 ↔ 2101 ≤ o_id := by
  rw [← not_lt_iff_le, loadedOrder]
  by_cases early : o_id < 2101
  · simp [early, (draw_bounds _).1]
  · simp [early]

theorem loaded_date (o_id : Integer) :
    (if o_id < 2101 then currentTimestamp else 0) = 0 ↔ 2101 ≤ o_id := by
  rw [← not_lt_iff_le]
  by_cases early : o_id < 2101
  · simp [early, currentTimestamp]
  · simp [early]

theorem loadOrder_foldl {orders : List (Integer × Integer)} (distinct : (orders.map Prod.fst).Nodup)
    (fresh : ∀ o ∈ orders.map Prod.fst, (db.ledger w_id d_id).order o = none)
    (lined : (db.ledger w_id d_id).Lined) (dated : (db.ledger w_id d_id).Dated (2101 ≤ ·))
    (after : orders.foldl (loadOrder cfg draws w_id d_id) db = db') :
    (db'.ledger w_id d_id).Lined ∧ (db'.ledger w_id d_id).Dated (2101 ≤ ·) ∧
      (∀ o, (db'.ledger w_id d_id).order o ≠ none ↔
        o ∈ orders.map Prod.fst ∨ (db.ledger w_id d_id).order o ≠ none) ∧
      (db'.ledger w_id d_id).next = (db.ledger w_id d_id).next ∧
      (db'.ledger w_id d_id).waiting = (db.ledger w_id d_id).waiting := by
  induction orders generalizing db with
  | nil =>
    subst after
    exact ⟨lined, dated, by simp, rfl, rfl⟩
  | cons o rest ih =>
    rw [List.map_cons, List.nodup_cons] at distinct
    have filed := @loadOrder_filed N _ db cfg draws w_id d_id o
    have new : (db.ledger w_id d_id).order o.1 = none := fresh o.1 (by simp)
    have later : ∀ q ∈ rest.map Prod.fst,
        ((loadOrder cfg draws w_id d_id db o).ledger w_id d_id).order q = none := by
      intro q member
      rw [filed.order_of_ne]
      · exact fresh q (List.mem_cons_of_mem _ member)
      · rintro rfl
        exact distinct.1 member
    have now_lined := filed.lined lined new (draw_bounds _).2
    have now_dated := filed.dated lined new dated (loadedOrder_carrier _ _) (loaded_date _)
    obtain ⟨lined', dated', orders', next', waiting'⟩ := ih distinct.2 later now_lined now_dated after
    obtain ⟨next, waiting⟩ := @loadOrder_rest N _ db cfg draws w_id d_id o
    refine ⟨lined', dated', fun q => ?_, next'.trans next, waiting'.trans waiting⟩
    rw [orders', filed.mem_order, List.map_cons, List.mem_cons]
    tauto

omit [Numeric N] in
theorem insertNeworder_foldl (numbers : List Integer) :
    (numbers.foldl (fun db i => db.insertNeworder ⟨w_id, d_id, i⟩) db).ledger w_id d_id =
      (db.ledger w_id d_id).addWaiting numbers := by
  induction numbers generalizing db with
  | nil => simp [Ledger.addWaiting]
  | cons number rest ih =>
    rw [List.foldl_cons, ih]
    refine Ledger.ext rfl rfl (funext fun q => propext ?_) rfl
    simp only [Ledger.addWaiting, ledger_insertNeworder, List.mem_cons]
    tauto

theorem loadOrders_away (away : ¬(w = w_id ∧ d = d_id)) :
    (db.loadOrders cfg draws w_id d_id).ledger w d = db.ledger w d := by
  refine (foldl_unseen (fun db : Db N => db.ledger w d)
    (f := fun db i => db.insertNeworder ⟨w_id, d_id, i⟩)
    (fun _ _ _ => ledger_insertNeworder_away away) _).trans ?_
  exact foldl_unseen (fun db => db.ledger w d) (f := loadOrder cfg draws w_id d_id)
    (fun _ _ _ => loadOrder_away away _) db

omit [Numeric N] in
theorem length_swap (ids : List Integer) (j i : Nat) : (swap ids j i).length = ids.length := by
  unfold swap
  split
  · rw [List.length_set, List.length_set]
  · rfl

omit [Numeric N] in
theorem length_shuffle (i : Nat) (ids : List Integer) : (shuffle draws i ids).length = ids.length := by
  induction i generalizing ids with
  | zero => rfl
  | succ i ih => rw [shuffle, ih, length_swap]

omit [Numeric N] in
theorem map_fst_orders :
    ((integers 1 3000).zip (customerIds draws)).map Prod.fst = integers 1 3000 := by
  refine List.map_fst_zip ?_
  rw [customerIds, length_shuffle]

/-- The orders of the loader are numbered, and those from 2101 on are open. -/
theorem loadOrders_ledger (start : db.ledger w_id d_id = .empty (some 3001))
    (after : db.loadOrders cfg draws w_id d_id = db') :
    (db'.ledger w_id d_id).Numbered 3001 2100 ∧ (db'.ledger w_id d_id).Dated (isOpen 2100) := by
  obtain ⟨mid, reached⟩ : ∃ mid,
      ((integers 1 3000).zip (customerIds draws)).foldl (loadOrder cfg draws w_id d_id) db = mid :=
    ⟨_, rfl⟩
  obtain ⟨lined, dated, orders, next, waiting⟩ := loadOrder_foldl
    (by rw [map_fst_orders]; exact nodup_integers _ _) (by rw [start]; exact fun _ _ => rfl)
    (by rw [start]; exact Ledger.empty_lined _) (by rw [start]; exact Ledger.empty_dated _ _) reached
  have last : db'.ledger w_id d_id = (mid.ledger w_id d_id).addWaiting (integers 2100 3000) := by
    subst after
    unfold loadOrders
    rw [reached]
    exact insertNeworder_foldl _
  rw [start] at next waiting orders
  rw [map_fst_orders] at orders
  rw [last]
  have limit : ∀ q : Integer, q ≤ 3000 ↔ q < 3001 := by
    intro q
    rw [Int32.le_iff_toInt_le, Int32.lt_iff_toInt_lt]
    exact Int.lt_add_one_iff.symm
  refine ⟨⟨⟨lined.lines, lined.no_lines, lined.count⟩, next, fun q => ?_, fun q => ?_, by decide,
    by decide, by decide⟩, ?_⟩
  · refine (orders q).trans ?_
    rw [mem_integers, limit]
    simp [Ledger.empty]
  · change q ∈ integers 2100 3000 ∨ (mid.ledger w_id d_id).waiting q ↔ _
    rw [waiting, mem_integers, limit]
    simp [Ledger.empty]
  · intro q row found
    have later : isOpen 2100 q ↔ 2101 ≤ q :=
      ⟨fun both => both.1, fun above => ⟨above, Int32.le_trans (by decide) above⟩⟩
    rw [later]
    exact dated q row found

/-! ### Districts of the loader -/

omit [Numeric N] in
theorem loadDistrict_away {tax : Integer → N} (away : ¬(w = w_id ∧ d = d_id)) :
    (db.loadDistrict w_id tax d_id).ledger w d = db.ledger w d := by
  refine Ledger.ext ?_ rfl rfl rfl
  change ((db.district.insert _ _).lookup _).map _ = _
  rw [OrderedMap.lookup_insert, if_neg]
  · rfl
  · intro same
    cases same
    exact away ⟨rfl, rfl⟩

omit [Numeric N] in
theorem loadDistrinct_away {tax : Integer → N} (away : ¬(w = w_id ∧ d ∈ integers 1 10)) :
    (db.loadDistrinct w_id tax).ledger w d = db.ledger w d := by
  refine foldl_unseen (fun db : Db N => db.ledger w d) (f := fun db i => db.loadDistrict w_id tax i)
    (fun db i member => loadDistrict_away ?_) db
  rintro ⟨rfl, rfl⟩
  exact away ⟨rfl, member⟩

omit [Numeric N] in
theorem loadDistrinct_ledger {tax : Integer → N} (member : d ∈ integers 1 10)
    (start : db.ledger w_id d = .empty none) :
    (db.loadDistrinct w_id tax).ledger w_id d = .empty (some 3001) := by
  obtain ⟨before, same, after⟩ := foldl_once (fun db : Db N => db.ledger w_id d)
    (f := fun db i => db.loadDistrict w_id tax i) (i := d) (l := integers 1 10)
    (fun _ _ _ other => loadDistrict_away fun both => other both.2.symm) (nodup_integers _ _)
    member db
  refine after.trans ?_
  rw [start] at same
  have order := congrArg Ledger.order same
  have waiting := congrArg Ledger.waiting same
  have line := congrArg Ledger.line same
  refine Ledger.ext ?_ order waiting line
  change ((before.district.insert _ _).lookup _).map _ = _
  rw [OrderedMap.lookup_insert, if_pos rfl]
  rfl

section Warehouses

variable {tax : Integer → Integer → N} {draws : Integer → Integer → Draws N}

theorem loadWarehouse_away (away : ¬(w = w_id ∧ d ∈ integers 1 10)) :
    (loadWarehouse cfg tax draws db w_id).ledger w d = db.ledger w d := by
  rw [← @loadDistrinct_away N db w_id w d (tax w_id) away]
  refine foldl_unseen (fun db : Db N => db.ledger w d)
    (f := fun db d_id => db.loadOrders cfg (draws w_id d_id) w_id d_id)
    (fun db i member => loadOrders_away ?_) _
  rintro ⟨rfl, rfl⟩
  exact away ⟨rfl, member⟩

theorem loadWarehouse_ledger (member : d ∈ integers 1 10) (start : db.ledger w_id d = .empty none)
    (after : loadWarehouse cfg tax draws db w_id = db') :
    (db'.ledger w_id d).Numbered 3001 2100 ∧ (db'.ledger w_id d).Dated (isOpen 2100) := by
  obtain ⟨before, same, last⟩ := foldl_once (fun db : Db N => db.ledger w_id d)
    (f := fun db d_id => db.loadOrders cfg (draws w_id d_id) w_id d_id) (i := d)
    (l := integers 1 10) (fun _ _ _ other => loadOrders_away fun both => other both.2.symm)
    (nodup_integers _ _) member (db.loadDistrinct w_id (tax w_id))
  rw [loadDistrinct_ledger member start] at same
  subst after
  unfold loadWarehouse
  rw [last]
  exact loadOrders_ledger same rfl

variable {warehouseCount : Integer}

/-- The warehouses of the loader have ten districts with the same numbers. -/
theorem load_ledger (inside : w ∈ integers 1 warehouseCount) (member : d ∈ integers 1 10)
    (start : db.ledger w d = .empty none) (after : db.load cfg warehouseCount tax draws = db') :
    (db'.ledger w d).Numbered 3001 2100 ∧ (db'.ledger w d).Dated (isOpen 2100) := by
  obtain ⟨before, same, last⟩ := foldl_once (fun db : Db N => db.ledger w d)
    (f := loadWarehouse cfg tax draws) (i := w) (l := integers 1 warehouseCount)
    (fun _ _ _ other => loadWarehouse_away fun both => other both.1.symm) (nodup_integers _ _)
    inside db
  subst after
  unfold load
  rw [last]
  exact loadWarehouse_ledger member (same.trans start) rfl

theorem load_away (outside : ¬(w ∈ integers 1 warehouseCount ∧ d ∈ integers 1 10)) :
    (db.load cfg warehouseCount tax draws).ledger w d = db.ledger w d := by
  refine foldl_unseen (fun db : Db N => db.ledger w d) (f := loadWarehouse cfg tax draws)
    (fun _ _ member => loadWarehouse_away fun both => outside ⟨?_, both.2⟩) db
  rw [both.1]
  exact member

end Warehouses

end Db

theorem Loaded.ledger {cfg : Config} {db : Db N} (loaded : Loaded cfg db) (w d : Integer) :
    (d ∈ integers 1 10 ∧ (db.ledger w d).Numbered 3001 2100 ∧ (db.ledger w d).Dated (isOpen 2100)) ∨
      (db.ledger w d).Blank := by
  obtain ⟨start, warehouseCount, tax, draws, district, neworder, order, orderline, rfl⟩ :=
    loaded.loaded
  have empty : start.ledger w d = .empty none := by
    refine Ledger.ext ?_ (funext fun _ => order _) (funext fun o => ?_)
      (funext fun _ => funext fun _ => orderline _)
    · change (start.district.lookup _).map _ = _
      rw [district]
      rfl
    · change ((⟨w, d, o⟩ : Neworder.Key) ∈ start.neworder) = False
      rw [OrderedMap.mem_iff, neworder]
      simp
  by_cases inside : w ∈ integers 1 warehouseCount ∧ d ∈ integers 1 10
  · exact .inl ⟨inside.2, Db.load_ledger inside.1 inside.2 empty rfl⟩
  · right
    rw [Db.load_away inside, empty]
    exact ⟨rfl, fun _ => rfl⟩

/-! ### Steps and runs -/

namespace Transaction

/-- The lines of a new order are numbered from one on, as `newOrderRnd` does. -/
def LinesNumbered : Transaction → Prop
  | .newOrder _ _ _ lines _ => Db.LinesNumbered lines
  | .delivery _ _ _ => True

/-- A delivery has a carrier and a date. -/
def Proper : Transaction → Prop
  | .newOrder _ _ _ _ _ => True
  | .delivery _ carrier_id datetime => 1 ≤ carrier_id ∧ datetime ≠ 0

def enters (w d : Integer) : Transaction → Bool
  | .newOrder w_id d_id _ _ _ => w_id == w && d_id == d
  | .delivery _ _ _ => false

def delivers (w : Integer) : Transaction → Bool
  | .newOrder _ _ _ _ _ => false
  | .delivery w_id _ _ => w_id == w

end Transaction

/-- The new orders that a history enters in a district. -/
def ordersOf (w d : Integer) (history : List Transaction) : Nat :=
  history.countP fun transaction => transaction.enters w d

section Runs

variable {cfg : Config} {db db' : Db N} {transaction : Transaction} {w d next first : Integer}

theorem exec_blank (executed : transaction.exec cfg db = some db')
    (blank : (db.ledger w d).Blank) : (db'.ledger w d).Blank := by
  cases transaction with
  | newOrder w_id d_id c_id lines timestamp =>
    by_cases here : w = w_id ∧ d = d_id
    · -- there is no district to take the number from
      obtain ⟨rfl, rfl⟩ := here
      obtain ⟨_, _, _, o_id, found, -⟩ := Db.newOrder_ok executed
      rw [blank.1] at found
      cases found
    · rw [Db.newOrder_away here executed]
      exact blank
  | delivery w_id carrier_id datetime => exact Db.deliverDistricts_blank blank executed

theorem exec_ledger (remove : cfg.tpccRemove = true) (lines : transaction.LinesNumbered)
    (member : d ∈ integers 1 10) (numbered : (db.ledger w d).Numbered next first)
    (executed : transaction.exec cfg db = some db') :
    (transaction.enters w d = true ∧ transaction.delivers w = false ∧
        ∃ row, Ledger.Entered (db.ledger w d) (db'.ledger w d) next row) ∨
      (transaction.enters w d = false ∧ transaction.delivers w = true ∧ first < next ∧
        ∃ carrier_id datetime, transaction = .delivery w carrier_id datetime ∧
          Ledger.Shipped (db.ledger w d) (db'.ledger w d) first carrier_id datetime) ∨
      (transaction.enters w d = false ∧ (transaction.delivers w = true → first = next) ∧
        db'.ledger w d = db.ledger w d) := by
  cases transaction with
  | newOrder w_id d_id c_id order_lines timestamp =>
    by_cases here : w = w_id ∧ d = d_id
    · obtain ⟨rfl, rfl⟩ := here
      obtain ⟨o_id, row, found, entered⟩ := Db.newOrder_entered lines executed
      rw [numbered.next_eq] at found
      cases found
      exact .inl ⟨by simp [Transaction.enters], rfl, row, entered⟩
    · refine .inr (.inr ⟨?_, (fun delivers => by cases delivers), Db.newOrder_away here executed⟩)
      simp only [Transaction.enters, Bool.and_eq_false_iff, beq_eq_false_iff_ne]
      tauto
  | delivery w_id carrier_id datetime =>
    by_cases here : w = w_id
    · subst here
      rcases Db.deliverDistricts_shipped remove numbered (nodup_integers _ _) member executed with
        ⟨some_waits, shipped⟩ | ⟨none_waits, same⟩
      · exact .inr (.inl ⟨rfl, by simp [Transaction.delivers], some_waits, _, _, rfl, shipped⟩)
      · exact .inr (.inr ⟨rfl, fun _ => none_waits, same⟩)
    · refine .inr (.inr ⟨rfl, fun delivers => ?_, ?_⟩)
      · simp only [Transaction.delivers, beq_iff_eq] at delivers
        exact absurd delivers.symm here
      · exact Db.deliverDistricts_away (fun both => here both.1) executed

theorem exec_numbered (remove : cfg.tpccRemove = true) (lines : transaction.LinesNumbered)
    (member : d ∈ integers 1 10) (numbered : (db.ledger w d).Numbered next first)
    (small : transaction.enters w d = true → next.toInt + 1 < 2 ^ 31)
    (executed : transaction.exec cfg db = some db') :
    ∃ next' first', (db'.ledger w d).Numbered next' first' ∧
      next'.toInt = next.toInt + (if transaction.enters w d then 1 else 0) ∧
      (transaction.Proper → (db.ledger w d).Dated (isOpen first) →
        (db'.ledger w d).Dated (isOpen first')) ∧
      (first' = 2100 ↔ first = 2100 ∧ transaction.delivers w = false) := by
  have low := numbered.low
  rcases exec_ledger remove lines member numbered executed with
    ⟨enters, stays, row, entered⟩ | ⟨stays, delivers, some_waits, carrier_id, datetime, rfl, shipped⟩ |
    ⟨stays, delivers, same⟩
  · refine ⟨next + 1, first, entered.numbered numbered (small enters), ?_, fun _ dated => ?_, ?_⟩
    · rw [if_pos enters]
      exact toInt_succ (small enters)
    · have above : isOpen first next := ⟨numbered.loaded, numbered.first_le⟩
      exact entered.toFiled.dated numbered.toLined numbered.none_of_next dated
        (by simp [entered.carrier, above]) (by simp [above])
    · simp [stays]
  · have next_first : (first + 1).toInt = first.toInt + 1 := by
      have high := Int32.toInt_lt next
      rw [Int32.lt_iff_toInt_lt] at some_waits
      exact toInt_succ (by omega)
    have literal : (2100 : Integer).toInt = 2100 := rfl
    have literal' : (2101 : Integer).toInt = 2101 := rfl
    rw [Int32.le_iff_toInt_le] at low
    refine ⟨next, first + 1, shipped.numbered numbered some_waits, by simp [stays],
      fun proper dated => ?_, ?_⟩
    · obtain ⟨carrier, date⟩ := proper
      refine shipped.dated dated (fun q other => ?_) ?_ ?_ date
      · simp only [isOpen, Int32.le_iff_toInt_le, ne_eq, ← Int32.toInt_inj] at other ⊢
        omega
      · simp only [isOpen, Int32.le_iff_toInt_le]
        omega
      · rintro rfl
        exact absurd carrier (by decide)
    · refine iff_of_false (fun same => ?_) fun both => by simp [delivers] at both
      rw [← Int32.toInt_inj] at same
      omega
  · rw [same]
    refine ⟨next, first, numbered, by simp [stays], fun _ dated => dated, ?_⟩
    have loaded := numbered.loaded
    cases which : transaction.delivers w with
    | false => simp
    | true =>
      -- no order waits, so the first order of the loader has been delivered
      obtain rfl := delivers which
      simp only [Bool.true_eq_false, and_false, iff_false]
      rintro rfl
      exact absurd loaded (by decide)

theorem path_numbered (remove : cfg.tpccRemove = true) {history : List Transaction}
    (path : (system cfg N).Path System.anyStep db history db')
    (lines : ∀ transaction ∈ history, transaction.LinesNumbered) (member : d ∈ integers 1 10)
    (numbered : (db.ledger w d).Numbered next first)
    (few : next.toInt + ordersOf w d history < 2 ^ 31) :
    ∃ next' first', (db'.ledger w d).Numbered next' first' ∧
      ((∀ transaction ∈ history, transaction.Proper) → (db.ledger w d).Dated (isOpen first) →
        (db'.ledger w d).Dated (isOpen first')) ∧
      (first' = 2100 ↔ first = 2100 ∧ ∀ transaction ∈ history, transaction.delivers w = false) := by
  induction path generalizing next first with
  | nil => exact ⟨next, first, numbered, fun _ dated => dated, by simp⟩
  | @cons db mid db' transaction history step _ _ ih =>
    rw [ordersOf, List.countP_cons] at few
    obtain ⟨next₁, first₁, numbered₁, count, dated₁, first_iff₁⟩ := exec_numbered remove
      (lines transaction List.mem_cons_self) member numbered
      (fun enters => by rw [if_pos enters] at few; omega) step
    have rest : ∀ transaction ∈ history, transaction.LinesNumbered :=
      fun later there => lines later (List.mem_cons_of_mem _ there)
    have fewer : next₁.toInt + ordersOf w d history < 2 ^ 31 := by
      rw [count, ordersOf]
      cases enters : transaction.enters w d with
      | false => simpa [enters] using few
      | true =>
        rw [if_pos enters] at few
        rw [if_pos rfl]
        omega
    obtain ⟨next', first', numbered', dated', first_iff'⟩ := ih rest numbered₁ fewer
    refine ⟨next', first', numbered', fun proper dated => ?_, ?_⟩
    · rw [List.forall_mem_cons] at proper
      exact dated' proper.2 (dated₁ proper.1 dated)
    · rw [first_iff', first_iff₁, List.forall_mem_cons, and_assoc]

theorem path_blank {history : List Transaction}
    (path : (system cfg N).Path System.anyStep db history db') (blank : (db.ledger w d).Blank) :
    (db'.ledger w d).Blank :=
  path.preserves (P := fun db => (db.ledger w d).Blank)
    (fun _ _ _ before _ executed => exec_blank executed before) blank

end Runs

/-! ### A small database -/

instance numericInt : Numeric Int where
  ofInteger x := x.toInt
  ge a b := decide (b ≤ a)

def sampleConfig : Config where
  orderWdcIndex := true
  tpccRemove := true
  manuallyHandleIsolationAnomalies := true

def sampleDraws : Db.Draws Int where
  swap i := ⟨i, Nat.lt_succ_self i⟩
  carrier _ := ⟨4, Nat.lt_of_sub_eq_succ rfl⟩
  ol_cnt _ := ⟨0, Nat.succ_pos 9⟩
  item _ _ := ⟨0, Nat.succ_pos 99999⟩
  amount _ _ := 1
  dist _ _ := { data := [], fits := Nat.zero_le 24 }

def emptyDb : Db Int where
  warehouse := .empty
  district := .empty
  customer := .empty
  neworder := .empty
  order := .empty
  orderWdc := .empty
  orderline := .empty
  item := .empty
  stock := .empty

def sampleDb : Db Int := emptyDb.load sampleConfig 1 (fun _ _ => 0) fun _ _ => sampleDraws

theorem sampleDb_loaded : Loaded sampleConfig sampleDb where
  loaded := ⟨emptyDb, 1, _, _, OrderedMap.lookup_empty, OrderedMap.lookup_empty,
    OrderedMap.lookup_empty, OrderedMap.lookup_empty, rfl⟩

theorem sampleDb_ledger :
    (sampleDb.ledger 1 1).Numbered 3001 2100 ∧ (sampleDb.ledger 1 1).Dated (isOpen 2100) := by
  have inside : ∀ high : Integer, 1 ≤ high → 1 ∈ integers 1 high :=
    fun high above => (mem_integers _ _ _).mpr ⟨Int32.le_refl 1, above⟩
  refine Db.load_ledger (inside 1 (by decide)) (inside 10 (by decide)) ?_ rfl
  refine Ledger.ext rfl rfl (funext fun o => eq_false ?_) rfl
  exact fun member => member (OrderedMap.lookup_empty _)

/-- A delivery that checks for anomalies never stops. -/
theorem delivery_some {cfg : Config} (manual : cfg.manuallyHandleIsolationAnomalies = true)
    (db : Db N) (w_id carrier_id : Integer) (datetime : Timestamp) :
    ∃ db', db.delivery cfg w_id carrier_id datetime = some db' := by
  unfold Db.delivery
  induction integers 1 10 generalizing db with
  | nil => exact ⟨db, rfl⟩
  | cons d_id rest ih =>
    obtain ⟨mid, first⟩ : ∃ mid,
        Db.deliverDistrict cfg w_id carrier_id datetime db d_id = some mid := by
      unfold Db.deliverDistrict Db.deliverOrder
      dsimp only
      rw [if_pos manual]
      split
      · exact ⟨_, rfl⟩
      · split <;> exact ⟨_, rfl⟩
    obtain ⟨db', others⟩ := ih mid
    exact ⟨db', Option.bind_eq_some_iff.mpr ⟨mid, first, others⟩⟩

theorem sample_delivery : ∃ db next first,
    (system sampleConfig Int).Reaches System.anyStep [.delivery 1 5 7] db ∧
      (db.ledger 1 1).Numbered next first := by
  obtain ⟨db, delivered⟩ := @delivery_some Int _ sampleConfig rfl sampleDb 1 5 7
  have path : (system sampleConfig Int).Path System.anyStep sampleDb [.delivery 1 5 7] db :=
    .cons delivered trivial (.nil db)
  have member : (1 : Integer) ∈ integers 1 10 := (mem_integers _ _ _).mpr (by decide)
  obtain ⟨next, first, numbered, -⟩ := path_numbered rfl path
    (by simp [Transaction.LinesNumbered]) member sampleDb_ledger.1 (by decide)
  exact ⟨db, next, first, ⟨sampleDb, sampleDb_loaded, path⟩, numbered⟩

/-! ### Numbers of orders -/

section Consistency

variable {cfg : Config} {db : Db N} {history : List Transaction}

/-- In every history the orders of a district are numbered from one to the next number, those that
wait for a delivery are the last ones, and the lines of an order are numbered up to its count. -/
theorem orders_numbered (remove : cfg.tpccRemove = true)
    (reached : (system cfg N).Reaches System.anyStep history db)
    (lines : ∀ transaction ∈ history, transaction.LinesNumbered)
    (few : ∀ w_id d_id, ordersOf w_id d_id history < 2 ^ 31 - 3001) {w_id d_id : Integer}
    {district : DistrictRow N} (found : db.district.lookup ⟨w_id, d_id⟩ = some district) :
    (∀ o_id, (⟨w_id, d_id, o_id⟩ : Order.Key) ∈ db.order ↔
        1 ≤ o_id ∧ o_id < district.d_next_o_id) ∧
      ((∀ o_id, (⟨w_id, d_id, o_id⟩ : Neworder.Key) ∉ db.neworder) ∨
        ∃ first < district.d_next_o_id, ∀ o_id, (⟨w_id, d_id, o_id⟩ : Neworder.Key) ∈ db.neworder ↔
          first ≤ o_id ∧ o_id < district.d_next_o_id) ∧
      ∀ o_id order, db.order.lookup ⟨w_id, d_id, o_id⟩ = some order →
        ∀ ol_number, (⟨w_id, d_id, o_id, ol_number⟩ : Orderline.Key) ∈ db.orderline ↔
          1 ≤ ol_number ∧ ol_number ≤ order.o_ol_cnt := by
  obtain ⟨start, loaded, path⟩ := reached
  have here : (db.ledger w_id d_id).next = some district.d_next_o_id :=
    Option.map_eq_some_iff.mpr ⟨district, found, rfl⟩
  rcases Loaded.ledger loaded w_id d_id with ⟨member, numbered, -⟩ | blank
  · have bound := few w_id d_id
    obtain ⟨next, first, numbered, -⟩ := path_numbered remove path lines member numbered (by
      have literal : (3001 : Integer).toInt = 3001 := rfl
      omega)
    rw [numbered.next_eq] at here
    cases here
    refine ⟨numbered.orders, ?_, numbered.lines⟩
    by_cases some_waits : first < district.d_next_o_id
    · exact .inr ⟨first, some_waits, numbered.waits⟩
    · refine .inl fun o_id waits => some_waits ?_
      obtain ⟨above, below⟩ := (numbered.waits o_id).mp waits
      exact Int32.lt_of_le_of_lt above below
  · rw [(path_blank path blank).1] at here
    cases here

theorem orders_numbered_delivery : ∃ db district,
    (system sampleConfig Int).Reaches System.anyStep [.delivery 1 5 7] db ∧
      db.district.lookup ⟨1, 1⟩ = some district ∧
      ∀ o_id, (⟨1, 1, o_id⟩ : Order.Key) ∈ db.order ↔ 1 ≤ o_id ∧ o_id < district.d_next_o_id := by
  obtain ⟨db, next, first, reached, numbered⟩ := sample_delivery
  obtain ⟨district, found, -⟩ := Option.map_eq_some_iff.mp numbered.next_eq
  refine ⟨db, district, reached, found, (orders_numbered rfl reached ?_ (fun _ _ => ?_) found).1⟩
  · simp [Transaction.LinesNumbered]
  · simp [ordersOf, Transaction.enters]

/-- The new-order table, the carrier of an order and the dates of its lines agree. -/
def StatusAgrees (db : Db N) (key : Order.Key) (order : OrderRow N) : Prop :=
  ((⟨key.o_w_id, key.o_d_id, key.o_id⟩ : Neworder.Key) ∈ db.neworder ↔ order.o_carrier_id = 0) ∧
    ∀ ol_number line,
      db.orderline.lookup ⟨key.o_w_id, key.o_d_id, key.o_id, ol_number⟩ = some line →
        if order.o_carrier_id = 0 then line.ol_delivery_d = 0 else line.ol_delivery_d ≠ 0

/-- The tables agree on every order but number 2100 of the loader, which is a delivered order with
a new-order row; it takes the first delivery of the warehouse to remove it. -/
theorem status_agrees_iff (remove : cfg.tpccRemove = true)
    (reached : (system cfg N).Reaches System.anyStep history db)
    (lines : ∀ transaction ∈ history, transaction.LinesNumbered)
    (proper : ∀ transaction ∈ history, transaction.Proper)
    (few : ∀ w_id d_id, ordersOf w_id d_id history < 2 ^ 31 - 3001) {w_id d_id o_id : Integer}
    {order : OrderRow N} (found : db.order.lookup ⟨w_id, d_id, o_id⟩ = some order) :
    StatusAgrees db ⟨w_id, d_id, o_id⟩ order ↔
      (o_id = 2100 → ∃ transaction ∈ history, transaction.delivers w_id = true) := by
  obtain ⟨start, loaded, path⟩ := reached
  rcases Loaded.ledger loaded w_id d_id with ⟨member, numbered, dated⟩ | blank
  · have bound := few w_id d_id
    obtain ⟨next, first, numbered, dates, first_iff⟩ :=
      path_numbered remove path lines member numbered (by
        have literal : (3001 : Integer).toInt = 3001 := rfl
        omega)
    obtain ⟨open_iff, line_iff⟩ := dates proper dated o_id order found
    have below := ((numbered.orders o_id).mp (by
      change db.order.lookup _ ≠ none
      simp [found])).2
    have waits : (⟨w_id, d_id, o_id⟩ : Neworder.Key) ∈ db.neworder ↔ first ≤ o_id := by
      exact (numbered.waits o_id).trans (and_iff_left below)
    have delivered : (∃ transaction ∈ history, transaction.delivers w_id = true) ↔ first ≠ 2100 := by
      rw [ne_eq, first_iff]
      simp
    have low := numbered.low
    have literal : (2101 : Integer).toInt = (2100 : Integer).toInt + 1 := rfl
    rw [delivered]
    constructor
    · rintro ⟨status, -⟩ rfl rfl
      -- the order waits and has a carrier
      have listed := status.mp (waits.mpr (Int32.le_refl _))
      exact absurd (open_iff.mp listed).1 (by decide)
    · intro condition
      have same : first ≤ o_id ↔ isOpen first o_id := by
        simp only [isOpen, ne_eq, ← Int32.toInt_inj, Int32.le_iff_toInt_le] at condition low ⊢
        omega
      refine ⟨waits.trans (same.trans open_iff.symm), fun ol_number line here => ?_⟩
      have date := (line_iff ol_number line here).trans open_iff.symm
      split
      next undelivered => exact date.mpr undelivered
      next delivered => exact fun zero => delivered (date.mp zero)
  · have missing := (path_blank path blank).2 o_id
    change db.order.lookup _ = none at missing
    rw [found] at missing
    cases missing

theorem status_agrees_after_delivery : ∃ db order,
    (system sampleConfig Int).Reaches System.anyStep [.delivery 1 5 7] db ∧
      db.order.lookup ⟨1, 1, 2100⟩ = some order ∧ StatusAgrees db ⟨1, 1, 2100⟩ order := by
  obtain ⟨db, next, first, reached, numbered⟩ := sample_delivery
  have below : (2100 : Integer) < next := by
    have loaded := numbered.loaded
    rw [Int32.le_iff_toInt_le] at loaded
    rw [Int32.lt_iff_toInt_lt]
    exact loaded
  obtain ⟨order, found⟩ := Option.ne_none_iff_exists'.mp
    ((numbered.orders 2100).mpr ⟨by decide, below⟩)
  refine ⟨db, order, reached, found, (status_agrees_iff rfl reached ?_ ?_ (fun _ _ => ?_) found).mpr
    fun _ => ⟨_, List.mem_singleton_self _, rfl⟩⟩
  · simp [Transaction.LinesNumbered]
  · intro transaction member
    rw [List.mem_singleton] at member
    subst member
    exact ⟨by decide, by decide⟩
  · simp [ordersOf, Transaction.enters]

omit [Numeric N] in
/-- Just after loading, order 2100 has a carrier and a new-order row. -/
theorem disagrees_of_ledger {w_id d_id : Integer}
    (numbered : (db.ledger w_id d_id).Numbered 3001 2100)
    (dated : (db.ledger w_id d_id).Dated (isOpen 2100)) :
    ∃ order, db.order.lookup ⟨w_id, d_id, 2100⟩ = some order ∧
      ¬StatusAgrees db ⟨w_id, d_id, 2100⟩ order := by
  have waits := (numbered.waits 2100).mpr (by decide)
  obtain ⟨order, found⟩ := numbered.order_of_waiting waits
  refine ⟨order, found, fun agrees => ?_⟩
  have listed := (dated 2100 order found).1.mp (agrees.1.mp waits)
  exact absurd listed.1 (by decide)

theorem status_disagrees_loaded : ∃ db order,
    (system sampleConfig Int).Reaches System.anyStep [] db ∧
      db.order.lookup ⟨1, 1, 2100⟩ = some order ∧ ¬StatusAgrees db ⟨1, 1, 2100⟩ order := by
  obtain ⟨order, found, disagrees⟩ := disagrees_of_ledger sampleDb_ledger.1 sampleDb_ledger.2
  exact ⟨sampleDb, order, ⟨sampleDb, sampleDb_loaded, .nil _⟩, found, disagrees⟩

end Consistency

end UringDb.Tpcc
