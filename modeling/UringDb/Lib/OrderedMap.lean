import Mathlib

/-!
# Ordered finite maps

A finite map with keys of a linear order. `modify` changes the value of a key that is there, and
`first` is what a scan finds that starts at a key and stops at once: the entry with the least key
from there on.
-/
namespace UringDb

structure OrderedMap (K V : Type) where
  map : Finmap fun _ : K => V

namespace OrderedMap

variable {K V : Type} [LinearOrder K]

def empty : OrderedMap K V := ⟨∅⟩

def lookup (t : OrderedMap K V) (k : K) : Option V := t.map.lookup k

def insert (t : OrderedMap K V) (k : K) (v : V) : OrderedMap K V := ⟨t.map.insert k v⟩

def erase (t : OrderedMap K V) (k : K) : OrderedMap K V := ⟨t.map.erase k⟩

def modify (t : OrderedMap K V) (k : K) (f : V → V) : OrderedMap K V :=
  match t.lookup k with
  | none => t
  | some v => t.insert k (f v)

def first (t : OrderedMap K V) (k : K) : Option (K × V) :=
  match (t.map.keys.filter fun q => k ≤ q).min with
  | none => none
  | some q => (t.lookup q).map fun v => (q, v)

instance membership : Membership K (OrderedMap K V) := ⟨fun t k => t.lookup k ≠ none⟩

section

variable (t : OrderedMap K V) (k q : K) (v : V)

theorem mem_iff : k ∈ t ↔ t.lookup k ≠ none := Iff.rfl

theorem mem_of_lookup {t : OrderedMap K V} {k : K} {v : V} (found : t.lookup k = some v) : k ∈ t := by
  rw [mem_iff, found]
  exact Option.some_ne_none v

theorem lookup_empty : (empty : OrderedMap K V).lookup k = none := Finmap.lookup_empty k

theorem lookup_insert : (t.insert k v).lookup q = if q = k then some v else t.lookup q := by
  unfold lookup insert
  by_cases same : q = k
  · subst same
    rw [Finmap.lookup_insert, if_pos rfl]
  · rw [Finmap.lookup_insert_of_ne _ same, if_neg same]

theorem mem_insert : q ∈ t.insert k v ↔ q = k ∨ q ∈ t := by
  rw [mem_iff, lookup_insert, mem_iff]
  by_cases same : q = k <;> simp [same]

theorem lookup_erase : (t.erase k).lookup q = if q = k then none else t.lookup q := by
  unfold lookup erase
  by_cases same : q = k
  · subst same
    rw [Finmap.lookup_erase, if_pos rfl]
  · rw [Finmap.lookup_erase_ne same, if_neg same]

theorem mem_erase : q ∈ t.erase k ↔ q ≠ k ∧ q ∈ t := by
  rw [mem_iff, lookup_erase, mem_iff]
  by_cases same : q = k <;> simp [same]

theorem lookup_modify (f : V → V) :
    (t.modify k f).lookup q = if q = k then (t.lookup q).map f else t.lookup q := by
  unfold modify
  split
  next absent =>
    by_cases same : q = k
    · subst same
      rw [if_pos rfl, absent]
      rfl
    · rw [if_neg same]
  next v found =>
    rw [lookup_insert]
    by_cases same : q = k
    · subst same
      rw [if_pos rfl, if_pos rfl, found]
      rfl
    · rw [if_neg same, if_neg same]

end

section

variable {t : OrderedMap K V} {k q : K} {v : V}

theorem mem_keys : k ∈ t.map.keys ↔ k ∈ t := by
  rw [Finmap.mem_keys, mem_iff, lookup, ne_eq, Finmap.lookup_eq_none, not_not]

/-- The entry of a scan is in the map, and no key between is. -/
theorem first_eq_some (found : t.first k = some (q, v)) :
    t.lookup q = some v ∧ k ≤ q ∧ ∀ p ∈ t, k ≤ p → q ≤ p := by
  unfold first at found
  split at found
  next => cases found
  next p least =>
    obtain ⟨w, here, same⟩ := Option.map_eq_some_iff.mp found
    cases same
    have member := Finset.mem_of_min least
    rw [Finset.mem_filter] at member
    refine ⟨here, member.2, fun p inside above => ?_⟩
    apply Finset.min_le_of_eq _ least
    rw [Finset.mem_filter]
    exact ⟨mem_keys.mpr inside, above⟩

theorem first_eq_none (none_ : t.first k = none) : ∀ p ∈ t, ¬k ≤ p := by
  unfold first at none_
  split at none_
  next empty =>
    intro p inside above
    have member : p ∈ t.map.keys.filter fun q => k ≤ q :=
      Finset.mem_filter.mpr ⟨mem_keys.mpr inside, above⟩
    rw [Finset.min_eq_top.mp empty] at member
    cases member
  next q least =>
    -- the least key is a key of the map, so its value is found
    have member := (Finset.mem_filter.mp (Finset.mem_of_min least)).1
    rw [Option.map_eq_none_iff] at none_
    exact absurd none_ (mem_keys.mp member)

theorem first_of_lookup (found : t.lookup k = some v) : t.first k = some (k, v) := by
  cases least : t.first k with
  | none => exact absurd le_rfl (first_eq_none least k (mem_of_lookup found))
  | some entry =>
    obtain ⟨q, w⟩ := entry
    obtain ⟨here, above, minimal⟩ := first_eq_some least
    obtain rfl := le_antisymm above (minimal k (mem_of_lookup found) le_rfl)
    rw [found] at here
    cases here
    rfl

end

end OrderedMap

end UringDb
