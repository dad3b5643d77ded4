import UringDb.Tpcc.Ledger

/-!
# Transactions on ledgers

Every district of a database has its ledger. A transaction changes a ledger by filing one order or
by shipping one order, and it leaves the ledgers of other districts alone.
-/
namespace UringDb.Tpcc

section Folds

variable {S V ι : Type} (view : S → V) {f : S → ι → S} {l : List ι}

theorem foldl_unseen (unseen : ∀ s, ∀ j ∈ l, view (f s j) = view s) (s : S) :
    view (l.foldl f s) = view s := by
  induction l generalizing s with
  | nil => rfl
  | cons j l ih =>
    rw [List.foldl_cons, ih fun s q member => unseen s q (List.mem_cons_of_mem _ member)]
    exact unseen s j List.mem_cons_self

/-- If only the turn at `i` changes what is seen, the whole loop does what this turn does. -/
theorem foldl_once {i : ι} (unseen : ∀ s, ∀ j ∈ l, j ≠ i → view (f s j) = view s)
    (distinct : l.Nodup) (member : i ∈ l) (s : S) :
    ∃ before, view before = view s ∧ view (l.foldl f s) = view (f before i) := by
  induction l generalizing s with
  | nil => cases member
  | cons j l ih =>
    obtain ⟨absent, distinct⟩ := List.nodup_cons.mp distinct
    have rest : ∀ s, ∀ q ∈ l, q ≠ i → view (f s q) = view s :=
      fun s q member => unseen s q (List.mem_cons_of_mem _ member)
    by_cases here : j = i
    · subst here
      refine ⟨s, rfl, foldl_unseen view (fun s q later => rest s q later ?_) _⟩
      rintro rfl
      exact absent later
    · have later := (List.mem_cons.mp member).resolve_left (Ne.symm here)
      obtain ⟨before, start, done⟩ := ih rest distinct later (f s j)
      exact ⟨before, start.trans (unseen s j List.mem_cons_self here), done⟩

end Folds

theorem mem_integers (low high x : Integer) : x ∈ integers low high ↔ low ≤ x ∧ x ≤ high := by
  have bounds := And.intro (Int32.le_toInt low) (Int32.toInt_lt high)
  simp only [integers, List.mem_map, List.mem_range, Int32.le_iff_toInt_le]
  constructor
  · rintro ⟨k, inside, rfl⟩
    rw [Int32.toInt_ofInt_of_le (by omega) (by omega)]
    omega
  · rintro ⟨above, below⟩
    refine ⟨(x.toInt - low.toInt).toNat, by omega, ?_⟩
    rw [show low.toInt + ((x.toInt - low.toInt).toNat : Int) = x.toInt by omega, Int32.ofInt_toInt]

theorem length_integers (low high : Integer) :
    (integers low high).length = (high.toInt + 1 - low.toInt).toNat := by
  rw [integers, List.length_map, List.length_range]

theorem nodup_integers (low high : Integer) : (integers low high).Nodup := by
  have bounds := And.intro (Int32.le_toInt low) (Int32.toInt_lt high)
  refine List.Nodup.map_on (fun j below k below' same => ?_) List.nodup_range
  rw [List.mem_range] at below below'
  have equal := congrArg Int32.toInt same
  rw [Int32.toInt_ofInt_of_le (by omega) (by omega),
    Int32.toInt_ofInt_of_le (by omega) (by omega)] at equal
  omega

variable {N : Type}

/-- What the tables say about one district. -/
def Db.ledger (db : Db N) (w_id d_id : Integer) : Ledger N where
  next := (db.district.lookup ⟨w_id, d_id⟩).map fun row => row.d_next_o_id
  order o_id := db.order.lookup ⟨w_id, d_id, o_id⟩
  waiting o_id := ⟨w_id, d_id, o_id⟩ ∈ db.neworder
  line o_id ol_number := db.orderline.lookup ⟨w_id, d_id, o_id, ol_number⟩

namespace Db

variable {db db' : Db N} {cfg : Config} {w_id d_id o_id w d : Integer}

/-! ### Adding rows -/

section Rows

variable (row : OrderRow N) (line : OrderlineRow N) (ol_number : Integer)

theorem ledger_insertOrder :
    (db.insertOrder cfg ⟨w_id, d_id, o_id⟩ row).ledger w_id d_id =
      (db.ledger w_id d_id).addOrder o_id row := by
  refine Ledger.ext rfl (funext fun q => ?_) rfl rfl
  change (db.order.insert _ row).lookup _ = _
  rw [OrderedMap.lookup_insert]
  simp only [Order.Key.mk.injEq, true_and]
  rfl

theorem ledger_insertOrder_away (away : ¬(w = w_id ∧ d = d_id)) :
    (db.insertOrder cfg ⟨w_id, d_id, o_id⟩ row).ledger w d = db.ledger w d := by
  refine Ledger.ext rfl (funext fun q => ?_) rfl rfl
  change (db.order.insert _ row).lookup _ = _
  rw [OrderedMap.lookup_insert, if_neg]
  · rfl
  · intro same
    cases same
    exact away ⟨rfl, rfl⟩

theorem ledger_insertNeworder (q : Integer) :
    ((db.insertNeworder ⟨w_id, d_id, o_id⟩).ledger w_id d_id).waiting q ↔
      q = o_id ∨ (db.ledger w_id d_id).waiting q := by
  change _ ∈ db.neworder.insert _ () ↔ _
  rw [OrderedMap.mem_insert]
  simp only [Neworder.Key.mk.injEq, true_and]
  rfl

theorem ledger_insertNeworder_away (away : ¬(w = w_id ∧ d = d_id)) :
    (db.insertNeworder ⟨w_id, d_id, o_id⟩).ledger w d = db.ledger w d := by
  refine Ledger.ext rfl rfl (funext fun q => propext ?_) rfl
  change _ ∈ db.neworder.insert _ () ↔ _
  rw [OrderedMap.mem_insert]
  refine or_iff_right fun same => ?_
  cases same
  exact away ⟨rfl, rfl⟩

theorem ledger_insertOrderline :
    Ledger.AddsLines (db.ledger w_id d_id)
      ((db.insertOrderline ⟨w_id, d_id, o_id, ol_number⟩ line).ledger w_id d_id) o_id
      line.ol_delivery_d [ol_number] where
  next := rfl
  order := rfl
  waiting := rfl
  line q k other := by
    change (db.orderline.insert _ line).lookup _ = _
    rw [OrderedMap.lookup_insert, if_neg]
    · rfl
    · intro same
      cases same
      exact other rfl
  mem_line k := by
    change _ ∈ db.orderline.insert _ line ↔ _
    rw [OrderedMap.mem_insert, List.mem_singleton, or_comm]
    simp only [Orderline.Key.mk.injEq, true_and]
    rfl
  date k line' here := by
    change (db.orderline.insert _ line).lookup _ = _ at here
    rw [OrderedMap.lookup_insert] at here
    split at here
    · cases here
      exact .inr rfl
    · exact .inl here

theorem ledger_insertOrderline_away (away : ¬(w = w_id ∧ d = d_id)) :
    (db.insertOrderline ⟨w_id, d_id, o_id, ol_number⟩ line).ledger w d = db.ledger w d := by
  refine Ledger.ext rfl rfl rfl (funext fun q => funext fun k => ?_)
  change (db.orderline.insert _ line).lookup _ = _
  rw [OrderedMap.lookup_insert, if_neg]
  · rfl
  · intro same
    cases same
    exact away ⟨rfl, rfl⟩

theorem ledger_advanceDistrict :
    (db.advanceDistrict w_id d_id).ledger w_id d_id =
      { db.ledger w_id d_id with next := (db.ledger w_id d_id).next.map (· + 1) } := by
  refine Ledger.ext ?_ rfl rfl rfl
  change ((db.district.modify _ _).lookup _).map _ = ((db.district.lookup _).map _).map _
  rw [OrderedMap.lookup_modify, if_pos rfl, Option.map_map, Option.map_map]
  rfl

theorem ledger_advanceDistrict_away (away : ¬(w = w_id ∧ d = d_id)) :
    (db.advanceDistrict w_id d_id).ledger w d = db.ledger w d := by
  refine Ledger.ext ?_ rfl rfl rfl
  change ((db.district.modify _ _).lookup _).map _ = _
  rw [OrderedMap.lookup_modify, if_neg]
  · rfl
  · intro same
    cases same
    exact away ⟨rfl, rfl⟩

end Rows

/-! ### New orders -/

section NewOrder

variable [Numeric N] {w_tax d_tax c_discount : N} {c_id : Integer} {timestamp : Timestamp} {line : Line}
  {lines : List Line}

theorem insertLine_ok (inserted : db.insertLine w_id d_id o_id w_tax d_tax c_discount line = some db') :
    ∃ row, row.ol_delivery_d = 0 ∧
      db' = db.insertOrderline ⟨w_id, d_id, o_id, line.lineNumber⟩ row := by
  unfold insertLine at inserted
  obtain ⟨item, -, inserted⟩ := Option.bind_eq_some_iff.mp inserted
  obtain ⟨stock, -, inserted⟩ := Option.bind_eq_some_iff.mp inserted
  split at inserted <;> cases inserted
  exact ⟨_, rfl, rfl⟩

theorem insertLines_adds
    (inserted : insertLines w_id d_id o_id w_tax d_tax c_discount lines db = some db') :
    Ledger.AddsLines (db.ledger w_id d_id) (db'.ledger w_id d_id) o_id 0
      (lines.map fun line => line.lineNumber) := by
  induction lines generalizing db with
  | nil =>
    cases inserted
    exact .none _ _ _
  | cons line rest ih =>
    obtain ⟨mid, added, others⟩ := Option.bind_eq_some_iff.mp inserted
    obtain ⟨row, undelivered, rfl⟩ := insertLine_ok added
    have first := @ledger_insertOrderline N db w_id d_id o_id row line.lineNumber
    rw [undelivered] at first
    exact first.append (ih others)

theorem insertLines_away (away : ¬(w = w_id ∧ d = d_id))
    (inserted : insertLines w_id d_id o_id w_tax d_tax c_discount lines db = some db') :
    db'.ledger w d = db.ledger w d := by
  induction lines generalizing db with
  | nil =>
    cases inserted
    rfl
  | cons line rest ih =>
    obtain ⟨mid, added, others⟩ := Option.bind_eq_some_iff.mp inserted
    obtain ⟨row, -, rfl⟩ := insertLine_ok added
    rw [ih others, ledger_insertOrderline_away row _ away]

theorem ledger_updateStock : (lines.foldl (updateStock w_id) db).ledger w d = db.ledger w d :=
  foldl_unseen (fun db => db.ledger w d) (f := updateStock w_id) (fun _ _ _ => rfl) db

theorem newOrder_ok (made : db.newOrder cfg w_id d_id c_id lines timestamp = some db') :
    ∃ (w_tax d_tax c_discount : N) (o_id : Integer), (db.ledger w_id d_id).next = some o_id ∧
      insertLines w_id d_id o_id w_tax d_tax c_discount lines (lines.foldl (updateStock w_id)
        (((db.advanceDistrict w_id d_id).insertOrder cfg ⟨w_id, d_id, o_id⟩
          (orderRow w_id c_id lines timestamp)).insertNeworder ⟨w_id, d_id, o_id⟩)) = some db' := by
  unfold newOrder at made
  obtain ⟨warehouse, -, made⟩ := Option.bind_eq_some_iff.mp made
  obtain ⟨customer, -, made⟩ := Option.bind_eq_some_iff.mp made
  obtain ⟨district, found, made⟩ := Option.bind_eq_some_iff.mp made
  exact ⟨_, _, _, district.d_next_o_id, Option.map_eq_some_iff.mpr ⟨district, found, rfl⟩, made⟩

theorem newOrder_away (away : ¬(w = w_id ∧ d = d_id))
    (made : db.newOrder cfg w_id d_id c_id lines timestamp = some db') :
    db'.ledger w d = db.ledger w d := by
  obtain ⟨w_tax, d_tax, c_discount, o_id, -, inserted⟩ := newOrder_ok made
  rw [insertLines_away away inserted, ledger_updateStock, ledger_insertNeworder_away away,
    ledger_insertOrder_away _ away, ledger_advanceDistrict_away away]

/-- The lines of a new order are numbered from one on. -/
def LinesNumbered (lines : List Line) : Prop :=
  lines.map (fun line => line.lineNumber) = integers 1 (Int32.ofNat lines.length)

theorem LinesNumbered.count (numbered : LinesNumbered lines) : 0 ≤ Int32.ofNat lines.length := by
  have length := congrArg List.length numbered
  rw [List.length_map, length_integers] at length
  rw [Int32.le_iff_toInt_le]
  have : (1 : Integer).toInt = 1 := rfl
  have : (0 : Integer).toInt = 0 := rfl
  by_contra negative
  have none : lines.length = 0 := by omega
  rw [none] at negative
  exact negative (by decide)

theorem newOrder_entered (numbered : LinesNumbered lines)
    (made : db.newOrder cfg w_id d_id c_id lines timestamp = some db') :
    ∃ o_id row, (db.ledger w_id d_id).next = some o_id ∧
      Ledger.Entered (db.ledger w_id d_id) (db'.ledger w_id d_id) o_id row := by
  obtain ⟨w_tax, d_tax, c_discount, o_id, found, inserted⟩ := newOrder_ok made
  have added := insertLines_adds inserted
  rw [ledger_updateStock, numbered] at added
  have lines_of_order := added.mem_line
  simp only [mem_integers] at lines_of_order
  refine ⟨o_id, orderRow w_id c_id lines timestamp, found, ?_⟩
  have head := @ledger_insertOrder N (db.advanceDistrict w_id d_id) cfg w_id d_id o_id
    (orderRow w_id c_id lines timestamp)
  rw [ledger_advanceDistrict] at head
  exact {
    order := fun q => by
      rw [added.order]
      exact congrFun (congrArg Ledger.order head) q
    line := fun q k other => added.line q k other
    mem_line := lines_of_order
    date := added.date
    next := by
      rw [added.next]
      refine (congrArg Ledger.next head).trans ?_
      rw [found]
      rfl
    waiting := fun q => by
      rw [added.waiting, ledger_insertNeworder, head]
      exact Iff.rfl
    carrier := rfl
    count := numbered.count }

end NewOrder

/-! ### Deliveries -/

section Delivery

variable {carrier_id : Integer} {datetime : Timestamp} {next first : Integer}

theorem neworder_le (a b : Neworder.Key) :
    a ≤ b ↔ a.no_w_id.toInt < b.no_w_id.toInt ∨ a.no_w_id.toInt = b.no_w_id.toInt ∧
      (a.no_d_id.toInt < b.no_d_id.toInt ∨
        a.no_d_id.toInt = b.no_d_id.toInt ∧ a.no_o_id.toInt ≤ b.no_o_id.toInt) := by
  change rank3 (Neworder.fields a) ≤ rank3 (Neworder.fields b) ↔ _
  rw [rank3, rank3, Prod.Lex.toLex_le_toLex, rank2, rank2, Prod.Lex.toLex_le_toLex]
  rfl

theorem neworder_between {key : Neworder.Key} {low high : Integer}
    (above : (⟨w_id, d_id, low⟩ : Neworder.Key) ≤ key)
    (below : key ≤ ⟨w_id, d_id, high⟩) :
    key = ⟨w_id, d_id, key.no_o_id⟩ ∧ key.no_o_id ≤ high := by
  rw [neworder_le] at above below
  obtain ⟨w, d, o⟩ := key
  dsimp only at above below ⊢
  simp only [Neworder.Key.mk.injEq, and_true, ← Int32.toInt_inj, Int32.le_iff_toInt_le]
  omega

theorem neworder_low (o_id : Integer) :
    (⟨w_id, d_id, minInteger⟩ : Neworder.Key) ≤ ⟨w_id, d_id, o_id⟩ := by
  rw [neworder_le]
  exact .inr ⟨rfl, .inr ⟨rfl, Int32.le_toInt o_id⟩⟩

/-- The scan for new orders finds the one that waits longest. -/
theorem nextDelivery_eq (numbered : (db.ledger w_id d_id).Numbered next first) :
    db.nextDelivery w_id d_id = if first < next then first else minInteger := by
  unfold nextDelivery
  by_cases some_waits : first < next
  · have member : (⟨w_id, d_id, first⟩ : Neworder.Key) ∈ db.neworder :=
      (numbered.waits first).mpr ⟨Int32.le_refl first, some_waits⟩
    rw [if_pos some_waits]
    split
    next absent => exact absurd (neworder_low first) (OrderedMap.first_eq_none absent _ member)
    next key _ found =>
      obtain ⟨here, above, least⟩ := OrderedMap.first_eq_some found
      obtain ⟨same, below⟩ := neworder_between above (least _ member (neworder_low first))
      rw [same] at here
      obtain ⟨waits, -⟩ := (numbered.waits key.no_o_id).mp (OrderedMap.mem_of_lookup here)
      rw [same, if_pos ⟨rfl, rfl⟩]
      exact Int32.le_antisymm below waits
  · rw [if_neg some_waits]
    split
    · rfl
    next key _ found =>
      refine if_neg ?_
      rintro ⟨rfl, rfl⟩
      obtain ⟨here, -, -⟩ := OrderedMap.first_eq_some found
      obtain ⟨waits, below⟩ := (numbered.waits key.no_o_id).mp (OrderedMap.mem_of_lookup here)
      exact some_waits (Int32.lt_of_le_of_lt waits below)

theorem ledger_eraseNeworder (remove : cfg.tpccRemove = true) (q : Integer) :
    ((db.eraseNeworder cfg ⟨w_id, d_id, o_id⟩).ledger w_id d_id).waiting q ↔
      q ≠ o_id ∧ (db.ledger w_id d_id).waiting q := by
  rw [eraseNeworder, if_pos remove]
  change _ ∈ db.neworder.erase _ ↔ _
  rw [OrderedMap.mem_erase]
  simp only [ne_eq, Neworder.Key.mk.injEq, true_and]
  rfl

theorem eraseNeworder_tables (key : Order.Key) :
    (db.eraseNeworder cfg key).district = db.district ∧
      (db.eraseNeworder cfg key).order = db.order ∧
      (db.eraseNeworder cfg key).orderline = db.orderline := by
  unfold eraseNeworder
  split <;> exact ⟨rfl, rfl, rfl⟩

theorem ledger_eraseNeworder_away (away : ¬(w = w_id ∧ d = d_id)) :
    (db.eraseNeworder cfg ⟨w_id, d_id, o_id⟩).ledger w d = db.ledger w d := by
  unfold eraseNeworder
  split
  · refine Ledger.ext rfl rfl (funext fun q => propext ?_) rfl
    change _ ∈ db.neworder.erase _ ↔ _
    rw [OrderedMap.mem_erase]
    refine and_iff_right fun same => ?_
    cases same
    exact away ⟨rfl, rfl⟩
  · rfl

theorem ledger_setCarrier :
    (db.setCarrier carrier_id ⟨w_id, d_id, o_id⟩).ledger w_id d_id =
      (db.ledger w_id d_id).setCarrier carrier_id o_id := by
  refine Ledger.ext rfl (funext fun q => ?_) rfl rfl
  change (db.order.modify _ _).lookup _ = _
  rw [OrderedMap.lookup_modify]
  simp only [Order.Key.mk.injEq, true_and]
  rfl

theorem ledger_setCarrier_away (away : ¬(w = w_id ∧ d = d_id)) :
    (db.setCarrier carrier_id ⟨w_id, d_id, o_id⟩).ledger w d = db.ledger w d := by
  refine Ledger.ext rfl (funext fun q => ?_) rfl rfl
  change (db.order.modify _ _).lookup _ = _
  rw [OrderedMap.lookup_modify, if_neg]
  · rfl
  · intro same
    cases same
    exact away ⟨rfl, rfl⟩

/-- The loop over the order lines dates those it visits. -/
theorem ledger_deliverLine (numbers : List Integer) :
    (numbers.foldl (deliverLine datetime w_id d_id o_id) db).ledger w_id d_id =
      (db.ledger w_id d_id).dateLines datetime o_id numbers := by
  induction numbers generalizing db with
  | nil => exact Ledger.ext rfl rfl rfl (funext fun q => funext fun k => by simp [Ledger.dateLines])
  | cons number rest ih =>
    rw [List.foldl_cons, ih]
    refine Ledger.ext rfl rfl rfl (funext fun q => funext fun k => ?_)
    have turn : ((deliverLine datetime w_id d_id o_id db number).ledger w_id d_id).line q k =
        if q = o_id ∧ k = number then ((db.ledger w_id d_id).line q k).map (.withDate datetime)
        else (db.ledger w_id d_id).line q k := by
      change (db.orderline.modify _ _).lookup _ = _
      rw [OrderedMap.lookup_modify]
      simp only [Orderline.Key.mk.injEq, true_and]
      rfl
    simp only [Ledger.dateLines, turn, List.mem_cons]
    by_cases here : q = o_id ∧ k = number
    · have visited : q = o_id ∧ (k = number ∨ k ∈ rest) := ⟨here.1, .inl here.2⟩
      rw [if_pos here, if_pos visited]
      -- a line that is visited again has its date already
      by_cases again : q = o_id ∧ k ∈ rest
      · rw [if_pos again, Option.map_map]
        rfl
      · rw [if_neg again]
    · rw [if_neg here]
      exact if_congr (by grind) rfl rfl

theorem ledger_deliverLine_away (away : ¬(w = w_id ∧ d = d_id)) (numbers : List Integer) :
    (numbers.foldl (deliverLine datetime w_id d_id o_id) db).ledger w d = db.ledger w d := by
  refine foldl_unseen (fun db => db.ledger w d) (fun db number _ => ?_) db
  refine Ledger.ext rfl rfl rfl (funext fun q => funext fun k => ?_)
  change (db.orderline.modify _ _).lookup _ = _
  rw [OrderedMap.lookup_modify, if_neg]
  · rfl
  · intro same
    cases same
    exact away ⟨rfl, rfl⟩

/-! #### One district -/

variable {row : OrderRow N}

theorem lookup_of_linesComplete {key : Orderline.Key} (missing : db.linesComplete key = false) :
    db.orderline.lookup key = none := by
  cases found : db.orderline.lookup key with
  | none => rfl
  | some row =>
    rw [linesComplete, OrderedMap.first_of_lookup found] at missing
    simp at missing

theorem scanOrder_eq {key : Order.Key} (found : db.scanOrder key = some row) :
    db.order.lookup key = some row := by
  unfold scanOrder at found
  split at found
  · cases found
  next q _ scanned =>
    split at found
    · cases found
    · split at found
      next same =>
        cases found
        subst same
        exact (OrderedMap.first_eq_some scanned).1
      next => cases found

theorem scanOrder_of_lookup {key : Order.Key} (found : db.order.lookup key = some row)
    (count : row.o_ol_cnt ≠ minInteger) : db.scanOrder key = some row := by
  unfold scanOrder
  rw [OrderedMap.first_of_lookup found]
  simp [count]

variable [Numeric N]

theorem ledger_settle_away (away : ¬(w = w_id ∧ d = d_id)) :
    (db.settle cfg datetime ⟨w_id, d_id, o_id⟩ row).ledger w d = db.ledger w d := by
  unfold settle
  split
  · rfl
  · exact ledger_deliverLine_away away _

/-- All order lines are dated: the check for the last one only stops an order without lines. -/
theorem ledger_settle
    (lines : ∀ k, (db.ledger w_id d_id).line o_id k ≠ none ↔ 1 ≤ k ∧ k ≤ row.o_ol_cnt) :
    (db.settle cfg datetime ⟨w_id, d_id, o_id⟩ row).ledger w_id d_id =
      (db.ledger w_id d_id).dateOrder datetime o_id := by
  unfold settle
  split
  next missing =>
    have absent := lookup_of_linesComplete missing.2
    have empty : ∀ k, (db.ledger w_id d_id).line o_id k ≠ none → k ∈ ([] : List Integer) := by
      intro k here
      have range := (lines k).mp here
      have last : (db.ledger w_id d_id).line o_id row.o_ol_cnt ≠ none :=
        (lines _).mpr ⟨Int32.le_trans range.1 range.2, Int32.le_refl _⟩
      exact absurd absent last
    rw [← Ledger.dateLines_eq_dateOrder empty]
    exact ledger_deliverLine []
  next =>
    refine (ledger_deliverLine _).trans (Ledger.dateLines_eq_dateOrder fun k here => ?_)
    exact (mem_integers _ _ _).mpr ((lines k).mp here)

theorem deliverOrder_ok {key : Order.Key}
    (delivered : db.deliverOrder cfg carrier_id datetime key = some db') :
    (db' = db.eraseNeworder cfg key ∧
        ∀ row, db.order.lookup key = some row → row.o_ol_cnt = minInteger) ∨
      ∃ row, db.order.lookup key = some row ∧
        db' = ((db.eraseNeworder cfg key).setCarrier carrier_id key).settle cfg datetime key row := by
  have table := (@eraseNeworder_tables N db cfg key).2.1
  unfold deliverOrder at delivered
  dsimp only at delivered
  split at delivered
  · split at delivered
    next scanned =>
      cases delivered
      refine .inl ⟨rfl, fun row found => ?_⟩
      rw [← table] at found
      by_contra count
      rw [scanOrder_of_lookup found count] at scanned
      cases scanned
    next row scanned =>
      cases delivered
      refine .inr ⟨row, ?_, rfl⟩
      rw [← table]
      exact scanOrder_eq scanned
  · obtain ⟨row, found, delivered⟩ := Option.bind_eq_some_iff.mp delivered
    cases delivered
    refine .inr ⟨row, ?_, rfl⟩
    rw [← table]
    exact found

theorem deliverOrder_away (away : ¬(w = w_id ∧ d = d_id))
    (delivered : db.deliverOrder cfg carrier_id datetime ⟨w_id, d_id, o_id⟩ = some db') :
    db'.ledger w d = db.ledger w d := by
  rcases deliverOrder_ok delivered with ⟨rfl, -⟩ | ⟨row, -, rfl⟩
  · exact ledger_eraseNeworder_away away
  · rw [ledger_settle_away away, ledger_setCarrier_away away, ledger_eraseNeworder_away away]

theorem deliverOrder_shipped (remove : cfg.tpccRemove = true)
    (lined : (db.ledger w_id d_id).Lined) (found : (db.ledger w_id d_id).order o_id = some row)
    (delivered : db.deliverOrder cfg carrier_id datetime ⟨w_id, d_id, o_id⟩ = some db') :
    Ledger.Shipped (db.ledger w_id d_id) (db'.ledger w_id d_id) o_id carrier_id datetime := by
  obtain ⟨district, order, orderline⟩ := @eraseNeworder_tables N db cfg ⟨w_id, d_id, o_id⟩
  rcases deliverOrder_ok delivered with ⟨-, bad⟩ | ⟨row', here, rfl⟩
  · -- the count of an order is no negative number
    have count := lined.count o_id row found
    rw [bad row found] at count
    exact absurd count (by decide)
  · obtain rfl : row' = row := Option.some.inj (here.symm.trans found)
    rw [ledger_settle, ledger_setCarrier]
    · exact {
        next := by
          change ((db.eraseNeworder cfg _).district.lookup _).map _ = _
          rw [district]
          rfl
        order := fun q => by
          change (if q = o_id then ((db.eraseNeworder cfg _).order.lookup _).map _
            else (db.eraseNeworder cfg _).order.lookup _) = _
          rw [order]
          rfl
        waiting := ledger_eraseNeworder remove
        line := fun q k => by
          change (if q = o_id then ((db.eraseNeworder cfg _).orderline.lookup _).map _
            else (db.eraseNeworder cfg _).orderline.lookup _) = _
          rw [orderline]
          rfl }
    · intro k
      rw [ledger_setCarrier]
      change (db.eraseNeworder cfg _).orderline.lookup _ ≠ none ↔ _
      rw [orderline]
      exact lined.lines o_id row' found k

theorem deliverOrder_blank (delivered : db.deliverOrder cfg carrier_id datetime ⟨w_id, d_id, o_id⟩ =
    some db') (blank : (db.ledger w d).Blank) : (db'.ledger w d).Blank := by
  by_cases away : w = w_id ∧ d = d_id
  · obtain ⟨rfl, rfl⟩ := away
    obtain ⟨district, order, -⟩ := @eraseNeworder_tables N db cfg ⟨w, d, o_id⟩
    rcases deliverOrder_ok delivered with ⟨rfl, -⟩ | ⟨row, found, -⟩
    · refine ⟨?_, fun q => ?_⟩
      · change ((db.eraseNeworder cfg _).district.lookup _).map _ = none
        rw [district]
        exact blank.1
      · change (db.eraseNeworder cfg _).order.lookup _ = none
        rw [order]
        exact blank.2 q
    · have missing : db.order.lookup ⟨w, d, o_id⟩ = none := blank.2 o_id
      rw [found] at missing
      cases missing
  · rw [deliverOrder_away away delivered]
    exact blank

theorem deliverDistrict_away (away : ¬(w = w_id ∧ d = d_id))
    (delivered : deliverDistrict cfg w_id carrier_id datetime db d_id = some db') :
    db'.ledger w d = db.ledger w d := by
  unfold deliverDistrict at delivered
  dsimp only at delivered
  split at delivered
  · cases delivered
    rfl
  · exact deliverOrder_away away delivered

theorem deliverDistrict_blank (blank : (db.ledger w d).Blank)
    (delivered : deliverDistrict cfg w_id carrier_id datetime db d_id = some db') :
    (db'.ledger w d).Blank := by
  unfold deliverDistrict at delivered
  dsimp only at delivered
  split at delivered
  · cases delivered
    exact blank
  · exact deliverOrder_blank delivered blank

/-- In a district with new orders the first of them is shipped. -/
theorem deliverDistrict_shipped (remove : cfg.tpccRemove = true)
    (numbered : (db.ledger w_id d_id).Numbered next first)
    (delivered : deliverDistrict cfg w_id carrier_id datetime db d_id = some db') :
    (first < next ∧
        Ledger.Shipped (db.ledger w_id d_id) (db'.ledger w_id d_id) first carrier_id datetime) ∨
      (first = next ∧ db'.ledger w_id d_id = db.ledger w_id d_id) := by
  unfold deliverDistrict at delivered
  dsimp only at delivered
  rw [nextDelivery_eq numbered] at delivered
  by_cases some_waits : first < next
  · have proper : first ≠ minInteger := by
      rintro rfl
      exact absurd numbered.low (by decide)
    rw [if_pos some_waits, if_neg proper] at delivered
    have waits := (numbered.waits first).mpr ⟨Int32.le_refl first, some_waits⟩
    obtain ⟨row, found⟩ := numbered.order_of_waiting waits
    exact .inl ⟨some_waits, deliverOrder_shipped remove numbered.toLined found delivered⟩
  · rw [if_neg some_waits, if_pos rfl] at delivered
    cases delivered
    have least := numbered.first_le
    refine .inr ⟨?_, rfl⟩
    rw [Int32.lt_iff_toInt_lt] at some_waits
    rw [Int32.le_iff_toInt_le] at least
    exact Int32.toInt_inj.mp (by omega)

/-! #### All districts -/

variable {districts : List Integer}

theorem deliverDistricts_away (away : ¬(w = w_id ∧ d ∈ districts))
    (delivered : deliverDistricts cfg w_id carrier_id datetime districts db = some db') :
    db'.ledger w d = db.ledger w d := by
  induction districts generalizing db with
  | nil =>
    cases delivered
    rfl
  | cons d_id rest ih =>
    obtain ⟨mid, first, others⟩ := Option.bind_eq_some_iff.mp delivered
    rw [ih (fun both => away ⟨both.1, List.mem_cons_of_mem _ both.2⟩) others]
    refine deliverDistrict_away (fun both => away ⟨both.1, ?_⟩) first
    rw [both.2]
    exact List.mem_cons_self

theorem deliverDistricts_blank (blank : (db.ledger w d).Blank)
    (delivered : deliverDistricts cfg w_id carrier_id datetime districts db = some db') :
    (db'.ledger w d).Blank := by
  induction districts generalizing db with
  | nil =>
    cases delivered
    exact blank
  | cons d_id rest ih =>
    obtain ⟨mid, first, others⟩ := Option.bind_eq_some_iff.mp delivered
    exact ih (deliverDistrict_blank blank first) others

/-- The loop ships at most one order of each district. -/
theorem deliverDistricts_shipped (remove : cfg.tpccRemove = true)
    (numbered : (db.ledger w_id d).Numbered next first) (distinct : districts.Nodup)
    (member : d ∈ districts)
    (delivered : deliverDistricts cfg w_id carrier_id datetime districts db = some db') :
    (first < next ∧
        Ledger.Shipped (db.ledger w_id d) (db'.ledger w_id d) first carrier_id datetime) ∨
      (first = next ∧ db'.ledger w_id d = db.ledger w_id d) := by
  induction districts generalizing db with
  | nil => cases member
  | cons d_id rest ih =>
    obtain ⟨absent, distinct⟩ := List.nodup_cons.mp distinct
    obtain ⟨mid, head, others⟩ := Option.bind_eq_some_iff.mp delivered
    by_cases here : d = d_id
    · subst here
      rw [deliverDistricts_away (fun both => absent both.2) others]
      exact deliverDistrict_shipped remove numbered head
    · have same := deliverDistrict_away (fun both : w_id = w_id ∧ d = d_id => here both.2) head
      rw [← same] at numbered ⊢
      exact ih numbered distinct ((List.mem_cons.mp member).resolve_left here) others

end Delivery

end Db

end UringDb.Tpcc
