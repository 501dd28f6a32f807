import Mathlib.Algebra.Field.Basic
import CircuitProof.Circuit.Basic

/-!
# What a circuit says of its inputs

Signals are read from the inputs by their place in the declarations. An expression lacks a value
exactly where one of the denominators in it is zero, so a circuit admits its inputs when no
denominator that occurs in it is zero and every relation holds.
-/

namespace CircuitProof

/-- The entry at the given place has the property, and no earlier one does. -/
structure FirstAt {α : Type} (p : α → Prop) (items : List α) (place : Nat) : Prop where
  here : ∃ item, items[place]? = some item ∧ p item
  earlier : ∀ i < place, ∀ item, items[i]? = some item → ¬ p item

/-- The entry at the given place has the property, and no later one does. -/
structure LastAt {α : Type} (p : α → Prop) (items : List α) (place : Nat) : Prop where
  here : ∃ item, items[place]? = some item ∧ p item
  later : ∀ i > place, ∀ item, items[i]? = some item → ¬ p item

section
variable {α : Type} {p : α → Prop}

theorem firstAt_append {before after : List α} {item : α} (hbefore : ∀ a ∈ before, ¬ p a)
    (hitem : p item) : FirstAt p (before ++ item :: after) before.length := by
  refine ⟨⟨item, by simp, hitem⟩, fun i hi a ha => ?_⟩
  rw [List.getElem?_append_left hi] at ha
  exact hbefore a (List.mem_of_getElem? ha)

/-- Whatever occurs has a first occurrence. -/
theorem exists_firstAt {items : List α} {item : α} (hmem : item ∈ items) (hitem : p item) :
    ∃ place, FirstAt p items place := by
  induction items with
  | nil => cases hmem
  | cons first rest ih =>
    by_cases hfirst : p first
    · exact ⟨0, ⟨first, rfl, hfirst⟩, fun i hi => absurd hi (Nat.not_lt_zero i)⟩
    · have hrest : item ∈ rest := by
        rcases List.mem_cons.mp hmem with rfl | hrest
        · exact absurd hitem hfirst
        · exact hrest
      obtain ⟨place, hhere, hearlier⟩ := ih hrest
      refine ⟨place + 1, hhere, fun i hi a ha => ?_⟩
      cases i with
      | zero =>
        obtain rfl : first = a := by simpa using ha
        exact hfirst
      | succ i => exact hearlier i (by omega) a (by simpa using ha)

/-- The first place in two lists together is one in the first list, or the first list has none. -/
theorem FirstAt.append_cases {before after : List α} {place : Nat}
    (h : FirstAt p (before ++ after) place) :
    FirstAt p before place ∨
      ∃ i, place = before.length + i ∧ (∀ a ∈ before, ¬ p a) ∧ FirstAt p after i := by
  obtain ⟨⟨item, hget, hitem⟩, hearlier⟩ := h
  by_cases hplace : place < before.length
  · rw [List.getElem?_append_left hplace] at hget
    refine .inl ⟨⟨item, hget, hitem⟩, fun i hi a ha => hearlier i hi a ?_⟩
    rwa [List.getElem?_append_left (by omega)]
  · obtain ⟨i, rfl⟩ : ∃ i, place = before.length + i := ⟨place - before.length, by omega⟩
    rw [List.getElem?_append_right (by omega), Nat.add_sub_cancel_left] at hget
    refine .inr ⟨i, rfl, fun a ha => ?_, ⟨item, hget, hitem⟩, fun j hj a ha => ?_⟩
    · obtain ⟨j, hj, rfl⟩ := List.getElem_of_mem ha
      exact hearlier j (by omega) _ (by rw [List.getElem?_append_left hj, List.getElem?_eq_getElem])
    · refine hearlier (before.length + j) (by omega) a ?_
      rwa [List.getElem?_append_right (by omega), Nat.add_sub_cancel_left]

end

variable {F : Type}

namespace Expression

/-- The denominators that occur in an expression, inner ones before outer ones. -/
def denominators : Expression F → List (Expression F)
  | signal _ => []
  | constant _ => []
  | neg inner => inner.denominators
  | add left right | sub left right | mul left right => left.denominators ++ right.denominators
  | div left right => left.denominators ++ right.denominators ++ [right]

def DividesByZero [Field F] [DecidableEq F] (env : String → F) : Expression F → Prop
  | div _ right => right.value? env = some 0
  | _ => False

variable [Field F] [DecidableEq F]

/-- Where two operands are combined, either one can be missing. -/
theorem combine_eq_none_iff {α β γ : Type} (x : Option α) (y : Option β) (f : α → β → γ) :
    (do some (f (← x) (← y))) = none ↔ x = none ∨ y = none := by
  cases x <;> cases y <;> simp

theorem value?_neg_eq_none_iff {inner : Expression F} {env : String → F} :
    (neg inner).value? env = none ↔ inner.value? env = none := by
  change (do some (-(← inner.value? env))) = none ↔ _
  cases inner.value? env <;> simp

theorem value?_div {left right : Expression F} {env : String → F} {n d : F}
    (hleft : left.value? env = some n) (hright : right.value? env = some d) (hd : d ≠ 0) :
    (div left right).value? env = some (n * d⁻¹) := by
  simp [value?, hleft, hright, inverse?, hd]

/-- A quotient is undefined where an operand is, and where the denominator is zero. -/
theorem value?_div_eq_none_iff {left right : Expression F} {env : String → F} :
    (div left right).value? env = none ↔
      left.value? env = none ∨ right.value? env = none ∨ right.value? env = some 0 := by
  cases hl : left.value? env with
  | none => simp [value?, hl]
  | some n =>
    cases hr : right.value? env with
    | none => simp [value?, hl, hr]
    | some d =>
      by_cases hd : d = 0
      · simp [value?, hl, hr, inverse?, hd]
      · simp [value?_div hl hr hd, hd]

/-- The value is strict: it is missing exactly where a denominator inside is zero. -/
theorem value?_eq_none_iff (e : Expression F) (env : String → F) :
    e.value? env = none ↔ ∃ d ∈ e.denominators, d.value? env = some 0 := by
  have happend : ∀ left right : Expression F,
      (∃ d ∈ left.denominators, d.value? env = some 0) ∨
          (∃ d ∈ right.denominators, d.value? env = some 0) ↔
        ∃ d ∈ left.denominators ++ right.denominators, d.value? env = some 0 := by
    intro left right
    simp only [List.mem_append, or_and_right, exists_or]
  induction e with
  | signal name => exact ⟨nofun, fun ⟨_, hmem, _⟩ => absurd hmem List.not_mem_nil⟩
  | constant value => exact ⟨nofun, fun ⟨_, hmem, _⟩ => absurd hmem List.not_mem_nil⟩
  | neg inner ih => exact value?_neg_eq_none_iff.trans ih
  | add left right hleft hright =>
    have hcombine := combine_eq_none_iff (left.value? env) (right.value? env) (· + ·)
    exact (hcombine.trans (or_congr hleft hright)).trans (happend left right)
  | sub left right hleft hright =>
    have hcombine := combine_eq_none_iff (left.value? env) (right.value? env) (· - ·)
    exact (hcombine.trans (or_congr hleft hright)).trans (happend left right)
  | mul left right hleft hright =>
    have hcombine := combine_eq_none_iff (left.value? env) (right.value? env) (· * ·)
    exact (hcombine.trans (or_congr hleft hright)).trans (happend left right)
  | div left right hleft hright =>
    have hsingle : right.value? env = some 0 ↔ ∃ d ∈ [right], d.value? env = some 0 := by
      simp only [List.mem_singleton, exists_eq_left]
    refine (value?_div_eq_none_iff.trans (or_congr hleft (or_congr hright hsingle))).trans ?_
    simp only [denominators, List.mem_append, or_and_right, exists_or, or_assoc]

end Expression

def Relation.denominators (relation : Relation F) : List (Expression F) :=
  relation.sides.flatMap Expression.denominators

namespace Circuit

def denominators (c : Circuit F) : List (Expression F) :=
  c.relations.flatMap Relation.denominators

section
variable [Zero F]

/-- The values of the declared signals, those of the shown ones and of the hidden ones being listed
in declaration order. -/
def environment (c : Circuit F) (shown hidden : List F) (name : String) : F :=
  ((c.inputNames.zip (shown ++ hidden)).lookup name).getD 0

end

/-- The circuit makes a true statement about its inputs, and a strict one: nothing is divided by
zero. -/
structure Admits [Field F] [DecidableEq F] (c : Circuit F) (shown hidden : List F) : Prop where
  denominators_ne_zero : ∀ d ∈ c.denominators, d.value? (c.environment shown hidden) ≠ some 0
  relations_hold : ∀ relation ∈ c.relations, relation.Holds (c.environment shown hidden)

end Circuit

/-- A key is found with the value at the key's first place. -/
theorem lookup_zip_of_idxOf? {α β : Type} [BEq α] [LawfulBEq α] {keys : List α} {values : List β}
    {key : α} {i : Nat} (h : keys.idxOf? key = some i) (hlength : keys.length = values.length) :
    (keys.zip values).lookup key = values[i]? := by
  induction keys generalizing values i with
  | nil => simp at h
  | cons first rest ih =>
    obtain ⟨value, values, rfl⟩ : ∃ value more, values = value :: more :=
      List.exists_cons_of_length_pos (by rw [← hlength]; simp)
    rw [List.idxOf?_cons] at h
    by_cases hkey : first = key
    · obtain rfl : 0 = i := by simpa [hkey] using h
      simp [hkey]
    · have hne : (key == first) = false := by simpa using fun heq => hkey heq.symm
      obtain ⟨j, hj, rfl⟩ : ∃ j, rest.idxOf? key = some j ∧ j + 1 = i := by
        simpa [hkey] using h
      rw [List.zip_cons_cons, List.lookup_cons, hne]
      exact ih hj (by simpa using hlength)

end CircuitProof
