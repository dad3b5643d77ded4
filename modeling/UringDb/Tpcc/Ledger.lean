import UringDb.Tpcc.Workload

/-!
# Ledger of a district

What the tables say about one district: the next order number, the orders with their order lines
and the orders that wait for a delivery. A new order is filed under the next number. A delivery
ships the waiting order with the least number. The two invariants are that the numbers have no
gaps (`Numbered`) and that open orders are those without carrier and delivery dates (`Dated`).
-/
namespace UringDb.Tpcc

theorem toInt_succ {x : Integer} (small : x.toInt + 1 < 2 ^ 31) : (x + 1).toInt = x.toInt + 1 := by
  have low := Int32.le_toInt x
  rw [Int32.toInt_add]
  exact Int.bmod_eq_of_le (by simp; omega) (by simp; omega)

@[ext]
structure Ledger (N : Type) where
  next : Option Integer
  order : Integer → Option (OrderRow N)
  waiting : Integer → Prop
  line : Integer → Integer → Option (OrderlineRow N)

def OrderRow.withCarrier {N : Type} (carrier_id : Integer) (row : OrderRow N) : OrderRow N :=
  { row with o_carrier_id := carrier_id }

def OrderlineRow.withDate {N : Type} (datetime : Timestamp) (row : OrderlineRow N) :
    OrderlineRow N :=
  { row with ol_delivery_d := datetime }

namespace Ledger

variable {N : Type}

def empty (next : Option Integer) : Ledger N where
  next := next
  order _ := none
  waiting _ := False
  line _ _ := none

def addOrder (L : Ledger N) (o : Integer) (row : OrderRow N) : Ledger N :=
  { L with order := fun q => if q = o then some row else L.order q }

def addWaiting (L : Ledger N) (numbers : List Integer) : Ledger N :=
  { L with waiting := fun q => q ∈ numbers ∨ L.waiting q }

def setCarrier (L : Ledger N) (carrier_id o : Integer) : Ledger N :=
  { L with order := fun q => if q = o then (L.order q).map (.withCarrier carrier_id) else L.order q }

def dateLines (L : Ledger N) (datetime : Timestamp) (o : Integer) (numbers : List Integer) :
    Ledger N :=
  { L with line := fun q k =>
      if q = o ∧ k ∈ numbers then (L.line q k).map (.withDate datetime) else L.line q k }

def dateOrder (L : Ledger N) (datetime : Timestamp) (o : Integer) : Ledger N :=
  { L with line := fun q k =>
      if q = o then (L.line q k).map (.withDate datetime) else L.line q k }

/-- The lines of an order are numbered from one to their count. -/
structure Lined (L : Ledger N) : Prop where
  lines : ∀ o row, L.order o = some row → ∀ k, L.line o k ≠ none ↔ 1 ≤ k ∧ k ≤ row.o_ol_cnt
  no_lines : ∀ o, L.order o = none → ∀ k, L.line o k = none
  count : ∀ o row, L.order o = some row → 0 ≤ row.o_ol_cnt

/-- Orders have the numbers below `next`, and those from `first` on wait for a delivery. -/
structure Numbered (L : Ledger N) (next first : Integer) : Prop extends Lined L where
  next_eq : L.next = some next
  orders : ∀ o, L.order o ≠ none ↔ 1 ≤ o ∧ o < next
  waits : ∀ o, L.waiting o ↔ first ≤ o ∧ o < next
  low : 2100 ≤ first
  first_le : first ≤ next
  loaded : 2101 ≤ next

/-- The orders without carrier and delivery dates are the open ones. -/
def Dated (L : Ledger N) (isOpen : Integer → Prop) : Prop :=
  ∀ o row, L.order o = some row → (row.o_carrier_id = 0 ↔ isOpen o) ∧
    ∀ k line, L.line o k = some line → (line.ol_delivery_d = 0 ↔ isOpen o)

def Blank (L : Ledger N) : Prop := L.next = none ∧ ∀ o, L.order o = none

variable {L L' : Ledger N} {next first o : Integer}

theorem empty_lined (next : Option Integer) : (empty next : Ledger N).Lined where
  lines o row found := by cases found
  no_lines _ _ _ := rfl
  count o row found := by cases found

theorem empty_dated (next : Option Integer) (isOpen : Integer → Prop) :
    (empty next : Ledger N).Dated isOpen := by
  intro o row found
  cases found

theorem Numbered.order_of_waiting (numbered : L.Numbered next first) (waits : L.waiting o) :
    ∃ row, L.order o = some row := by
  obtain ⟨above, below⟩ := (numbered.waits o).mp waits
  refine Option.ne_none_iff_exists'.mp ((numbered.orders o).mpr ⟨?_, below⟩)
  have low := numbered.low
  rw [Int32.le_iff_toInt_le] at above low ⊢
  have : (2100 : Integer).toInt = 2100 := rfl
  have : (1 : Integer).toInt = 1 := rfl
  omega

theorem Numbered.none_of_next (numbered : L.Numbered next first) : L.order next = none := by
  by_contra found
  exact Int32.lt_irrefl ((numbered.orders next).mp found).2

/-- A loop that visits all lines of an order dates the order. -/
theorem dateLines_eq_dateOrder {datetime : Timestamp} {numbers : List Integer}
    (visited : ∀ k, L.line o k ≠ none → k ∈ numbers) :
    L.dateLines datetime o numbers = L.dateOrder datetime o := by
  refine Ledger.ext rfl rfl rfl (funext fun q => funext fun k => ?_)
  simp only [dateLines, dateOrder]
  by_cases order : q = o
  · subst order
    rw [if_pos rfl]
    by_cases inside : k ∈ numbers
    · rw [if_pos ⟨rfl, inside⟩]
    · have none : L.line q k = none := by
        by_contra here
        exact inside (visited k here)
      simp [none]
  · rw [if_neg order, if_neg fun both => order both.1]

/-! ### Filing an order -/

/-- An order with its lines has been added under the number `o`. -/
structure Filed (L L' : Ledger N) (o : Integer) (row : OrderRow N) (date : Timestamp) : Prop where
  order : ∀ q, L'.order q = if q = o then some row else L.order q
  line : ∀ q k, q ≠ o → L'.line q k = L.line q k
  mem_line : ∀ k, L'.line o k ≠ none ↔ L.line o k ≠ none ∨ 1 ≤ k ∧ k ≤ row.o_ol_cnt
  date : ∀ k line, L'.line o k = some line → L.line o k = some line ∨ line.ol_delivery_d = date

variable {row : OrderRow N} {date : Timestamp} {isOpen : Integer → Prop}

theorem Filed.order_self (filed : Filed L L' o row date) : L'.order o = some row := by
  rw [filed.order, if_pos rfl]

theorem Filed.order_of_ne (filed : Filed L L' o row date) {q : Integer} (other : q ≠ o) :
    L'.order q = L.order q := by
  rw [filed.order, if_neg other]

theorem Filed.mem_order (filed : Filed L L' o row date) (q : Integer) :
    L'.order q ≠ none ↔ q = o ∨ L.order q ≠ none := by
  by_cases same : q = o
  · subst same
    simp [filed.order_self]
  · simp [filed.order_of_ne same, same]

theorem Filed.lined (filed : Filed L L' o row date) (lined : L.Lined) (fresh : L.order o = none)
    (count : 0 ≤ row.o_ol_cnt) : L'.Lined where
  lines := by
    intro q row' found k
    by_cases same : q = o
    · subst same
      rw [filed.order_self] at found
      cases found
      rw [filed.mem_line]
      simp [lined.no_lines q fresh k]
    · rw [filed.order_of_ne same] at found
      rw [filed.line q k same]
      exact lined.lines q row' found k
  no_lines := by
    intro q absent k
    have other : q ≠ o := by
      rintro rfl
      rw [filed.order_self] at absent
      cases absent
    rw [filed.order_of_ne other] at absent
    rw [filed.line q k other]
    exact lined.no_lines q absent k
  count := by
    intro q row' found
    by_cases same : q = o
    · subst same
      rw [filed.order_self] at found
      cases found
      exact count
    · rw [filed.order_of_ne same] at found
      exact lined.count q row' found

theorem Filed.dated (filed : Filed L L' o row date) (lined : L.Lined) (fresh : L.order o = none)
    (dated : L.Dated isOpen) (carrier : row.o_carrier_id = 0 ↔ isOpen o)
    (delivery : date = 0 ↔ isOpen o) : L'.Dated isOpen := by
  intro q row' found
  by_cases same : q = o
  · subst same
    rw [filed.order_self] at found
    cases found
    refine ⟨carrier, fun k line here => ?_⟩
    rcases filed.date k line here with before | dated
    · rw [lined.no_lines q fresh k] at before
      cases before
    · rw [dated]
      exact delivery
  · rw [filed.order_of_ne same] at found
    obtain ⟨status, lines⟩ := dated q row' found
    refine ⟨status, fun k line here => ?_⟩
    rw [filed.line q k same] at here
    exact lines k line here

/-- Lines have been added to the order `o`. -/
structure AddsLines (L L' : Ledger N) (o : Integer) (date : Timestamp) (numbers : List Integer) :
    Prop where
  next : L'.next = L.next
  order : L'.order = L.order
  waiting : L'.waiting = L.waiting
  line : ∀ q k, q ≠ o → L'.line q k = L.line q k
  mem_line : ∀ k, L'.line o k ≠ none ↔ L.line o k ≠ none ∨ k ∈ numbers
  date : ∀ k line, L'.line o k = some line → L.line o k = some line ∨ line.ol_delivery_d = date

theorem AddsLines.none (L : Ledger N) (o : Integer) (date : Timestamp) : AddsLines L L o date [] where
  next := rfl
  order := rfl
  waiting := rfl
  line _ _ _ := rfl
  mem_line k := by simp
  date _ _ here := .inl here

theorem AddsLines.append {L'' : Ledger N} {numbers more : List Integer}
    (first : AddsLines L L' o date numbers) (second : AddsLines L' L'' o date more) :
    AddsLines L L'' o date (numbers ++ more) where
  next := second.next.trans first.next
  order := second.order.trans first.order
  waiting := second.waiting.trans first.waiting
  line q k other := (second.line q k other).trans (first.line q k other)
  mem_line k := by rw [second.mem_line, first.mem_line, List.mem_append, or_assoc]
  date k line here := by
    rcases second.date k line here with before | dated
    · exact first.date k line before
    · exact .inr dated

/-- A new order has been entered. -/
structure Entered (L L' : Ledger N) (o : Integer) (row : OrderRow N) : Prop
    extends Filed L L' o row 0 where
  next : L'.next = some (o + 1)
  waiting : ∀ q, L'.waiting q ↔ q = o ∨ L.waiting q
  carrier : row.o_carrier_id = 0
  count : 0 ≤ row.o_ol_cnt

theorem Entered.numbered (entered : Entered L L' next row) (numbered : L.Numbered next first)
    (small : next.toInt + 1 < 2 ^ 31) : L'.Numbered (next + 1) first where
  toLined := entered.toFiled.lined numbered.toLined numbered.none_of_next entered.count
  next_eq := entered.next
  orders := by
    intro q
    have low := numbered.loaded
    have literal : (2101 : Integer).toInt = 2101 := rfl
    have one : (1 : Integer).toInt = 1 := rfl
    rw [entered.toFiled.mem_order, numbered.orders, ← Int32.toInt_inj]
    simp only [Int32.le_iff_toInt_le, Int32.lt_iff_toInt_lt] at low ⊢
    rw [toInt_succ small]
    omega
  waits := by
    intro q
    have above := numbered.first_le
    rw [entered.waiting, numbered.waits, ← Int32.toInt_inj]
    simp only [Int32.le_iff_toInt_le, Int32.lt_iff_toInt_lt] at above ⊢
    rw [toInt_succ small]
    omega
  low := numbered.low
  first_le := by
    have above := numbered.first_le
    rw [Int32.le_iff_toInt_le] at above ⊢
    rw [toInt_succ small]
    omega
  loaded := by
    have above := numbered.loaded
    rw [Int32.le_iff_toInt_le] at above ⊢
    rw [toInt_succ small]
    omega

/-! ### Shipping an order -/

/-- The order `o` has been handed to a carrier. -/
structure Shipped (L L' : Ledger N) (o carrier_id : Integer) (datetime : Timestamp) : Prop where
  next : L'.next = L.next
  order : ∀ q, L'.order q =
    if q = o then (L.order q).map (.withCarrier carrier_id) else L.order q
  waiting : ∀ q, L'.waiting q ↔ q ≠ o ∧ L.waiting q
  line : ∀ q k, L'.line q k =
    if q = o then (L.line q k).map (.withDate datetime) else L.line q k

variable {carrier_id : Integer} {datetime : Timestamp}

theorem Shipped.order_inv (shipped : Shipped L L' o carrier_id datetime) {q : Integer}
    {row' : OrderRow N} (found : L'.order q = some row') :
    ∃ row, L.order q = some row ∧ row'.o_ol_cnt = row.o_ol_cnt ∧
      row'.o_carrier_id = if q = o then carrier_id else row.o_carrier_id := by
  rw [shipped.order] at found
  by_cases same : q = o
  · rw [if_pos same] at found
    obtain ⟨row, before, rfl⟩ := Option.map_eq_some_iff.mp found
    exact ⟨row, before, rfl, (if_pos same).symm⟩
  · rw [if_neg same] at found
    exact ⟨row', found, rfl, (if_neg same).symm⟩

theorem Shipped.order_none (shipped : Shipped L L' o carrier_id datetime) (q : Integer) :
    L'.order q = none ↔ L.order q = none := by
  rw [shipped.order]
  by_cases same : q = o
  · rw [if_pos same, Option.map_eq_none_iff]
  · rw [if_neg same]

theorem Shipped.line_inv (shipped : Shipped L L' o carrier_id datetime) {q k : Integer}
    {line' : OrderlineRow N} (found : L'.line q k = some line') :
    ∃ line, L.line q k = some line ∧
      line'.ol_delivery_d = if q = o then datetime else line.ol_delivery_d := by
  rw [shipped.line] at found
  by_cases same : q = o
  · rw [if_pos same] at found
    obtain ⟨line, before, rfl⟩ := Option.map_eq_some_iff.mp found
    exact ⟨line, before, (if_pos same).symm⟩
  · rw [if_neg same] at found
    exact ⟨line', found, (if_neg same).symm⟩

theorem Shipped.line_none (shipped : Shipped L L' o carrier_id datetime) (q k : Integer) :
    L'.line q k = none ↔ L.line q k = none := by
  rw [shipped.line]
  by_cases same : q = o
  · rw [if_pos same, Option.map_eq_none_iff]
  · rw [if_neg same]

theorem Shipped.lined (shipped : Shipped L L' o carrier_id datetime) (lined : L.Lined) :
    L'.Lined where
  lines := by
    intro q row' found k
    obtain ⟨row, before, count, -⟩ := shipped.order_inv found
    rw [ne_eq, shipped.line_none, count]
    exact lined.lines q row before k
  no_lines := by
    intro q absent k
    rw [shipped.line_none]
    exact lined.no_lines q ((shipped.order_none q).mp absent) k
  count := by
    intro q row' found
    obtain ⟨row, before, count, -⟩ := shipped.order_inv found
    rw [count]
    exact lined.count q row before

theorem Shipped.numbered (shipped : Shipped L L' first carrier_id datetime)
    (numbered : L.Numbered next first) (some_waits : first < next) :
    L'.Numbered next (first + 1) := by
  have small : first.toInt + 1 < 2 ^ 31 := by
    have high := Int32.toInt_lt next
    rw [Int32.lt_iff_toInt_lt] at some_waits
    omega
  have succ := toInt_succ small
  rw [Int32.lt_iff_toInt_lt] at some_waits
  exact {
    toLined := shipped.lined numbered.toLined
    next_eq := shipped.next.trans numbered.next_eq
    orders := fun q => by rw [ne_eq, shipped.order_none, ← ne_eq, numbered.orders]
    waits := fun q => by
      rw [shipped.waiting, numbered.waits, ne_eq, ← Int32.toInt_inj]
      simp only [Int32.le_iff_toInt_le, Int32.lt_iff_toInt_lt]
      omega
    low := by
      have low := numbered.low
      rw [Int32.le_iff_toInt_le] at low ⊢
      omega
    first_le := by
      rw [Int32.le_iff_toInt_le]
      omega
    loaded := numbered.loaded }

/-- Only the order that is shipped changes from open to delivered. -/
theorem Shipped.dated (shipped : Shipped L L' o carrier_id datetime) {isOpen' : Integer → Prop}
    (dated : L.Dated isOpen) (others : ∀ q, q ≠ o → (isOpen' q ↔ isOpen q)) (closed : ¬isOpen' o)
    (carrier : carrier_id ≠ 0) (date : datetime ≠ 0) : L'.Dated isOpen' := by
  intro q row' found
  obtain ⟨row, before, -, status⟩ := shipped.order_inv found
  obtain ⟨open_iff, lines⟩ := dated q row before
  by_cases same : q = o
  · subst same
    rw [if_pos rfl] at status
    refine ⟨by simp [status, carrier, closed], fun k line' here => ?_⟩
    obtain ⟨line, -, dates⟩ := shipped.line_inv here
    rw [if_pos rfl] at dates
    simp [dates, date, closed]
  · rw [if_neg same] at status
    rw [others q same, status]
    refine ⟨open_iff, fun k line' here => ?_⟩
    obtain ⟨line, there, dates⟩ := shipped.line_inv here
    rw [if_neg same] at dates
    rw [dates]
    exact lines k line there

end Ledger

end UringDb.Tpcc
