import UringDb.Lib.Lex

/-!
# Encodings that keep the order

Values are encoded as words, and several of them one behind the other. Such an encoding can be
read back from the start of a longer word, and it keeps the order of the values if words are
compared lexicographically, whatever follows. In this form the two properties carry over from
the parts to the whole.
-/
namespace UringDb

variable {β α γ : Type}

/-- How values are written and read, and what is known about them. The number returned with a
decoded value is that of the letters read. -/
structure Codec (β α : Type) where
  encode : α → List β
  decode : List β → Option (α × Nat)
  /-- The letters set aside for a value. -/
  size : Nat
  Valid : α → Prop
  Less : α → α → Prop

namespace Codec

/-- One value behind the other. -/
def pair (c : Codec β α) (d : Codec β γ) : Codec β (α × γ) where
  encode v := c.encode v.1 ++ d.encode v.2
  decode input := do
    let (a, n) ← c.decode input
    let (b, m) ← d.decode (input.drop n)
    some ((a, b), n + m)
  size := c.size + d.size
  Valid v := c.Valid v.1 ∧ d.Valid v.2
  Less v w := c.Less v.1 w.1 ∨ v.1 = w.1 ∧ d.Less v.2 w.2

/-- The values of a type with the same content. -/
def via (c : Codec β γ) (fields : α ≃ γ) : Codec β α where
  encode v := c.encode (fields v)
  decode input := (c.decode input).map fun (v, n) => (fields.symm v, n)
  size := c.size
  Valid v := c.Valid (fields v)
  Less v w := c.Less (fields v) (fields w)

/-- **An encoding that keeps the order**, and can be read back, in any context. -/
structure Lawful [LinearOrder β] (c : Codec β α) : Prop where
  round_trip : ∀ {a}, c.Valid a → ∀ rest,
    c.decode (c.encode a ++ rest) = some (a, (c.encode a).length)
  order : ∀ {a b}, c.Valid a → c.Valid b → ∀ rest rest',
    c.encode a ++ rest < c.encode b ++ rest' ↔ c.Less a b ∨ a = b ∧ rest < rest'
  short : ∀ {a}, c.Valid a → (c.encode a).length ≤ c.size

namespace Lawful

variable [LinearOrder β]

theorem pair {c : Codec β α} {d : Codec β γ} (first : c.Lawful) (second : d.Lawful) :
    (c.pair d).Lawful where
  round_trip := by
    rintro ⟨a, b⟩ ⟨valid, valid'⟩ rest
    have head := first.round_trip valid (d.encode b ++ rest)
    have tail := second.round_trip valid' rest
    simp only [Codec.pair, List.append_assoc, head, Option.bind_eq_bind, Option.bind_some,
      List.drop_left, tail, List.length_append]
  order := by
    rintro ⟨a, b⟩ ⟨a', b'⟩ valid valid' rest rest'
    simp only [Codec.pair, List.append_assoc, first.order valid.1 valid'.1,
      second.order valid.2 valid'.2, Prod.mk.injEq]
    tauto
  short := by
    rintro ⟨a, b⟩ ⟨valid, valid'⟩
    rw [Codec.pair, List.length_append]
    exact Nat.add_le_add (first.short valid) (second.short valid')

theorem via {c : Codec β γ} (lawful : c.Lawful) (fields : α ≃ γ) : (c.via fields).Lawful where
  round_trip := by
    intro a valid rest
    have back := lawful.round_trip valid rest
    simp only [Codec.via, back, Option.map_some, Equiv.symm_apply_apply]
  order := by
    intro a b valid valid' rest rest'
    have order := lawful.order valid valid' rest rest'
    rwa [fields.apply_eq_iff_eq] at order
  short valid := lawful.short valid

variable {c : Codec β α}

theorem decode_encode (lawful : c.Lawful) {a : α} (valid : c.Valid a) :
    c.decode (c.encode a) = some (a, (c.encode a).length) := by
  have back := lawful.round_trip valid []
  rwa [List.append_nil] at back

theorem encode_lt_encode (lawful : c.Lawful) {a b : α} (valid : c.Valid a) (valid' : c.Valid b) :
    c.encode a < c.encode b ↔ c.Less a b := by
  have order := lawful.order valid valid' [] []
  rwa [List.append_nil, List.append_nil, lt_self_iff_false, and_false, or_false] at order

theorem encode_injective (lawful : c.Lawful) {a b : α} (valid : c.Valid a) (valid' : c.Valid b)
    (same : c.encode a = c.encode b) : a = b := by
  have read := lawful.decode_encode valid
  rw [same, lawful.decode_encode valid', Option.some.injEq, Prod.mk.injEq] at read
  exact read.1.symm

end Lawful

theorem terminated_lt [LinearOrder β] [OrderBot β] {a b : List β} (free : ⊥ ∉ a) (free' : ⊥ ∉ b)
    (rest rest' : List β) :
    a ++ ⊥ :: rest < b ++ ⊥ :: rest' ↔ a < b ∨ a = b ∧ rest < rest' := by
  induction a generalizing b with
  | nil =>
    cases b with
    | nil => simp only [List.nil_append, List.cons_lt_cons_iff, lt_self_iff_false, false_or, true_and]
    | cons y b =>
      have least : ⊥ < y := bot_lt_iff_ne_bot.mpr fun same => free' (same ▸ List.mem_cons_self)
      simp only [List.nil_append, List.cons_append, List.cons_lt_cons_iff, least, true_or,
        List.nil_lt_cons]
  | cons x a ih =>
    rw [List.mem_cons, not_or] at free
    cases b with
    | nil =>
      simp only [List.nil_append, List.cons_append, List.cons_lt_cons_iff, not_lt_bot,
        Ne.symm free.1, List.not_lt_nil, reduceCtorEq, false_and, or_self]
    | cons y b =>
      rw [List.mem_cons, not_or] at free'
      simp only [List.cons_append, List.cons_lt_cons_iff, ih free.2 free'.2, List.cons.injEq]
      tauto

end Codec

end UringDb
