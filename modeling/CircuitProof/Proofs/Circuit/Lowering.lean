import CircuitProof.Circuit.Lowering
import CircuitProof.Proofs.Circuit.Meaning
import CircuitProof.Proofs.System.Satisfaction

/-!
# Lowering keeps the meaning of expressions

Every product or quotient that takes a column leaves one gate, and the gates come out in the order
of the columns. Wherever the gates up to some point are solved, the next gate computes the operands
of its own product or quotient, so its denominator is zero exactly when the expression's is. Where
all gates are solved, the combination has the value of the expression.
-/

namespace CircuitProof

variable {F : Type}

/-- What every proof about a composed computation takes apart first. -/
theorem Emitter.bind_eq_ok {α β : Type} {m : Emitter F α} {f : α → Emitter F β} {next : Nat} {b : β}
    {gates : List (Gate F)} (h : (m >>= f) next = .ok (b, gates)) :
    ∃ a first second, m next = .ok (a, first) ∧ f a (next + first.length) = .ok (b, second) ∧
      gates = first ++ second := by
  cases hm : m next with
  | error e =>
    rw [Emitter.bind_of_error hm] at h
    cases h
  | ok result =>
    obtain ⟨a, first⟩ := result
    rw [Emitter.bind_of_ok hm] at h
    cases hf : f a (next + first.length) with
    | error e =>
      rw [hf] at h
      cases h
    | ok result =>
      obtain ⟨b', second⟩ := result
      rw [hf] at h
      cases h
      exact ⟨a, first, second, rfl, hf, rfl⟩

theorem Emitter.pure_eq_ok {α : Type} {a b : α} {next : Nat} {gates : List (Gate F)}
    (h : (pure a : Emitter F α) next = .ok (b, gates)) : b = a ∧ gates = [] := by
  rw [Emitter.pure_apply] at h
  cases h
  exact ⟨rfl, rfl⟩

variable [Field F] [DecidableEq F]

/-- The product of two combinations takes a column when neither is constant, and is a multiple
otherwise. -/
theorem Combination.lowerMul_eq_ok {a b c : Combination F} {next : Nat} {gates : List (Gate F)}
    (h : a.lowerMul b next = .ok (c, gates)) :
    (gates = [] ∧ ((∃ k, a.asConstant? = some k ∧ c = b.scale k) ∨
      ∃ k, b.asConstant? = some k ∧ c = a.scale k)) ∨
    (gates = [.product next a b] ∧ a.asConstant? = none ∧ b.asConstant? = none ∧
      c = .column next) := by
  cases ha : a.asConstant? with
  | some k =>
    simp only [Combination.lowerMul, ha] at h
    obtain ⟨rfl, rfl⟩ := Emitter.pure_eq_ok h
    exact .inl ⟨rfl, .inl ⟨k, rfl, rfl⟩⟩
  | none =>
    cases hb : b.asConstant? with
    | some k =>
      simp only [Combination.lowerMul, ha, hb] at h
      obtain ⟨rfl, rfl⟩ := Emitter.pure_eq_ok h
      exact .inl ⟨rfl, .inr ⟨k, rfl, rfl⟩⟩
    | none =>
      simp only [Combination.lowerMul, ha, hb, Emitter.emit_apply] at h
      cases h
      exact .inr ⟨rfl, rfl, rfl, rfl⟩

/-- The quotient of two combinations takes a column when the denominator is not constant, and is a
multiple otherwise. -/
theorem Combination.lowerDiv_eq_ok {a b c : Combination F} {next : Nat} {gates : List (Gate F)}
    (h : a.lowerDiv b next = .ok (c, gates)) :
    (gates = [] ∧ ∃ k, b.asConstant? = some k ∧ k ≠ 0 ∧ c = a.scale k⁻¹) ∨
    (gates = [.quotient next a b] ∧ b.asConstant? = none ∧ c = .column next) := by
  cases hb : b.asConstant? with
  | none =>
    simp only [Combination.lowerDiv, hb, Emitter.emit_apply] at h
    cases h
    exact .inr ⟨rfl, rfl, rfl⟩
  | some k =>
    by_cases hk : k = 0
    · simp only [Combination.lowerDiv, hb, inverse?, hk, ↓reduceIte, Emitter.fail_apply] at h
      cases h
    · simp only [Combination.lowerDiv, hb, inverse?, hk, ↓reduceIte] at h
      obtain ⟨rfl, rfl⟩ := Emitter.pure_eq_ok h
      exact .inl ⟨rfl, k, rfl, hk, rfl⟩

namespace Expression

variable {columnOf : String → Option Nat}

structure LowersOperands (columnOf : String → Option Nat) (left right : Expression F) (next : Nat)
    (a b : Combination F) (first second : List (Gate F)) : Prop where
  left : left.lower columnOf next = .ok (a, first)
  right : right.lower columnOf (next + first.length) = .ok (b, second)

/-- What lowering two operands and then combining the results comes to. -/
theorem lower_operands {β : Type} {left right : Expression F} {next : Nat} {result : β}
    {gates : List (Gate F)} {combine : Combination F → Combination F → Emitter F β}
    (h : (left.lower columnOf >>= fun a => right.lower columnOf >>= fun b => combine a b) next =
      .ok (result, gates)) :
    ∃ a b first second own, LowersOperands columnOf left right next a b first second ∧
      combine a b (next + (first ++ second).length) = .ok (result, own) ∧
      gates = first ++ second ++ own := by
  obtain ⟨a, first, rest, hleft, hrest, rfl⟩ := Emitter.bind_eq_ok h
  obtain ⟨b, second, own, hright, hown, rfl⟩ := Emitter.bind_eq_ok hrest
  refine ⟨a, b, first, second, own, ⟨hleft, hright⟩, ?_, by simp⟩
  rwa [List.length_append, ← Nat.add_assoc]

theorem lower_signal {name : String} {next : Nat} {c : Combination F} {gates : List (Gate F)}
    (h : (signal name).lower columnOf next = .ok (c, gates)) :
    ∃ column, columnOf name = some column ∧ c = .column column ∧ gates = [] := by
  cases hcolumn : columnOf name with
  | none =>
    simp only [lower, hcolumn, Emitter.fail_apply] at h
    cases h
  | some column =>
    simp only [lower, hcolumn] at h
    obtain ⟨rfl, rfl⟩ := Emitter.pure_eq_ok h
    exact ⟨column, rfl, rfl, rfl⟩

theorem lower_neg {inner : Expression F} {next : Nat} {c : Combination F} {gates : List (Gate F)}
    (h : (neg inner).lower columnOf next = .ok (c, gates)) :
    ∃ a, inner.lower columnOf next = .ok (a, gates) ∧ c = -a := by
  obtain ⟨a, first, second, hinner, hpure, rfl⟩ := Emitter.bind_eq_ok h
  obtain ⟨rfl, rfl⟩ := Emitter.pure_eq_ok hpure
  exact ⟨a, by simpa using hinner, rfl⟩

theorem lower_add {left right : Expression F} {next : Nat} {c : Combination F}
    {gates : List (Gate F)} (h : (add left right).lower columnOf next = .ok (c, gates)) :
    ∃ a b first second, LowersOperands columnOf left right next a b first second ∧ c = a + b ∧
      gates = first ++ second := by
  obtain ⟨a, b, first, second, own, hoperands, hpure, rfl⟩ := lower_operands h
  obtain ⟨rfl, rfl⟩ := Emitter.pure_eq_ok hpure
  exact ⟨a, b, first, second, hoperands, rfl, by simp⟩

theorem lower_sub {left right : Expression F} {next : Nat} {c : Combination F}
    {gates : List (Gate F)} (h : (sub left right).lower columnOf next = .ok (c, gates)) :
    ∃ a b first second, LowersOperands columnOf left right next a b first second ∧ c = a - b ∧
      gates = first ++ second := by
  obtain ⟨a, b, first, second, own, hoperands, hpure, rfl⟩ := lower_operands h
  obtain ⟨rfl, rfl⟩ := Emitter.pure_eq_ok hpure
  exact ⟨a, b, first, second, hoperands, rfl, by simp⟩

/-! ## Columns -/

/-- The columns from `next` on are free: the unit column and all signals lie before. -/
structure FreeFrom (columnOf : String → Option Nat) (next : Nat) : Prop where
  unit : unitColumn < next
  signals : ∀ name column, columnOf name = some column → column < next

omit [Field F] [DecidableEq F] in
theorem FreeFrom.later {next : Nat} (h : FreeFrom columnOf next) (gates : List (Gate F)) :
    FreeFrom columnOf (next + gates.length) :=
  ⟨Nat.lt_add_right _ h.unit, fun name column hcolumn =>
    Nat.lt_add_right _ (h.signals name column hcolumn)⟩

/-- A combination and the gates behind it, in place from `next` on. -/
structure InPlace (next : Nat) (a : Combination F) (gates : List (Gate F)) : Prop where
  below : a.Below (next + gates.length)
  placed : Gate.Placed next gates

omit [Field F] [DecidableEq F] in
/-- Two combinations, the second lowered after the first. -/
theorem InPlace.append {next : Nat} {a b : Combination F} {first second : List (Gate F)}
    (ha : InPlace next a first) (hb : InPlace (next + first.length) b second) :
    InPlace next a (first ++ second) ∧ InPlace next b (first ++ second) := by
  have hlength : next + (first ++ second).length = next + first.length + second.length := by
    rw [List.length_append, Nat.add_assoc]
  have hplaced : Gate.Placed next (first ++ second) :=
    Gate.placed_append.mpr ⟨ha.placed, hb.placed⟩
  refine ⟨⟨ha.below.mono (by omega), hplaced⟩, ⟨?_, hplaced⟩⟩
  rw [hlength]
  exact hb.below

omit [DecidableEq F] in
/-- A gate that reads what is in place takes the next column. -/
theorem InPlace.snoc {next : Nat} {gates : List (Gate F)} {gate : Gate F}
    (hplaced : Gate.Placed next gates) (htarget : gate.target = next + gates.length)
    (hreads : gate.Reads (next + gates.length)) :
    InPlace next (.column (next + gates.length)) (gates ++ [gate]) := by
  refine ⟨?_, Gate.placed_append.mpr ⟨hplaced, htarget, hreads, trivial⟩⟩
  apply Combination.below_column
  simp only [List.length_append, List.length_cons, List.length_nil]
  omega

/-- A fresh column is the next one behind the gates so far. -/
theorem InPlace.lowerMul {next : Nat} {a b c : Combination F} {gates own : List (Gate F)}
    (ha : InPlace next a gates) (hb : InPlace next b gates)
    (h : a.lowerMul b (next + gates.length) = .ok (c, own)) : InPlace next c (gates ++ own) := by
  rcases Combination.lowerMul_eq_ok h with
    ⟨rfl, ⟨k, -, rfl⟩ | ⟨k, -, rfl⟩⟩ | ⟨rfl, -, -, rfl⟩
  · rw [List.append_nil]
    exact ⟨Combination.below_scale k hb.below, hb.placed⟩
  · rw [List.append_nil]
    exact ⟨Combination.below_scale k ha.below, ha.placed⟩
  · exact InPlace.snoc ha.placed rfl ⟨ha.below, hb.below⟩

theorem InPlace.lowerDiv {next : Nat} {a b c : Combination F} {gates own : List (Gate F)}
    (ha : InPlace next a gates) (hb : InPlace next b gates)
    (h : a.lowerDiv b (next + gates.length) = .ok (c, own)) : InPlace next c (gates ++ own) := by
  rcases Combination.lowerDiv_eq_ok h with ⟨rfl, k, -, -, rfl⟩ | ⟨rfl, -, rfl⟩
  · rw [List.append_nil]
    exact ⟨Combination.below_scale k⁻¹ ha.below, ha.placed⟩
  · exact InPlace.snoc ha.placed rfl ⟨ha.below, hb.below⟩

/-- The gates of an expression take consecutive columns, and each reads only earlier ones. -/
theorem lower_inPlace {e : Expression F} {next : Nat} {c : Combination F} {gates : List (Gate F)}
    (hfree : FreeFrom columnOf next) (h : e.lower columnOf next = .ok (c, gates)) :
    InPlace next c gates := by
  induction e generalizing next c gates with
  | signal name =>
    obtain ⟨column, hcolumn, rfl, rfl⟩ := lower_signal h
    exact ⟨Combination.below_column (hfree.signals name column hcolumn), trivial⟩
  | constant value =>
    obtain ⟨rfl, rfl⟩ := Emitter.pure_eq_ok h
    exact ⟨Combination.below_constant value hfree.unit, trivial⟩
  | neg inner ih =>
    obtain ⟨a, hinner, rfl⟩ := lower_neg h
    have ha := ih hfree hinner
    exact ⟨Combination.below_neg ha.below, ha.placed⟩
  | add left right ihl ihr =>
    obtain ⟨a, b, first, second, hoperands, rfl, rfl⟩ := lower_add h
    obtain ⟨ha, hb⟩ :=
      (ihl hfree hoperands.left).append (ihr (hfree.later first) hoperands.right)
    exact ⟨Combination.below_add ha.below hb.below, ha.placed⟩
  | sub left right ihl ihr =>
    obtain ⟨a, b, first, second, hoperands, rfl, rfl⟩ := lower_sub h
    obtain ⟨ha, hb⟩ :=
      (ihl hfree hoperands.left).append (ihr (hfree.later first) hoperands.right)
    exact ⟨Combination.below_sub ha.below hb.below, ha.placed⟩
  | mul left right ihl ihr =>
    obtain ⟨a, b, first, second, own, hoperands, hown, rfl⟩ := lower_operands h
    obtain ⟨ha, hb⟩ :=
      (ihl hfree hoperands.left).append (ihr (hfree.later first) hoperands.right)
    exact ha.lowerMul hb hown
  | div left right ihl ihr =>
    obtain ⟨a, b, first, second, own, hoperands, hown, rfl⟩ := lower_operands h
    obtain ⟨ha, hb⟩ :=
      (ihl hfree hoperands.left).append (ihr (hfree.later first) hoperands.right)
    exact ha.lowerDiv hb hown

/-! ## Relations -/

/-- The three ways in which a side of an equation is lowered. -/
inductive LowersSide (columnOf : String → Option Nat) (next : Nat) :
    Expression F → Side F → List (Gate F) → Prop where
  | plain {e : Expression F} {c : Combination F} {gates : List (Gate F)} :
    (∀ left right, e ≠ mul left right) → e.lower columnOf next = .ok (c, gates) →
      LowersSide columnOf next e (.linear c) gates
  | folded {left right : Expression F} {a b c : Combination F} {first second : List (Gate F)} :
    LowersOperands columnOf left right next a b first second →
      (a.asConstant?.isSome || b.asConstant?.isSome) = true →
      a.lowerMul b (next + (first ++ second).length) = .ok (c, []) →
      LowersSide columnOf next (mul left right) (.linear c) (first ++ second)
  | factors {left right : Expression F} {a b : Combination F} {first second : List (Gate F)} :
    LowersOperands columnOf left right next a b first second →
      a.asConstant? = none → b.asConstant? = none →
      LowersSide columnOf next (mul left right) (.factors a b) (first ++ second)

/-- A product is kept as two factors only if neither of them is constant. -/
theorem lowersSide_of_lowerSide {e : Expression F} {next : Nat} {side : Side F}
    {gates : List (Gate F)} (h : e.lowerSide columnOf next = .ok (side, gates)) :
    LowersSide columnOf next e side gates := by
  cases e with
  | mul left right =>
    obtain ⟨a, b, first, second, own, hoperands, hown, rfl⟩ := lower_operands h
    cases hfold : a.asConstant?.isSome || b.asConstant?.isSome with
    | false =>
      have hnone : (a.asConstant?.isNone && b.asConstant?.isNone) = true := by simp_all
      rw [if_pos hnone] at hown
      obtain ⟨rfl, rfl⟩ := Emitter.pure_eq_ok hown
      rw [List.append_nil]
      exact .factors hoperands (by simp_all) (by simp_all)
    | true =>
      have hsome : ¬ (a.asConstant?.isNone && b.asConstant?.isNone) = true := by
        cases ha : a.asConstant? <;> cases hb : b.asConstant? <;> simp_all
      rw [if_neg hsome] at hown
      obtain ⟨c, gates, more, hmul, hpure, rfl⟩ := Emitter.bind_eq_ok hown
      obtain ⟨rfl, rfl⟩ := Emitter.pure_eq_ok hpure
      obtain rfl : gates = [] := by
        rcases Combination.lowerMul_eq_ok hmul with ⟨hnil, -⟩ | ⟨-, ha, hb, -⟩
        · exact hnil
        · simp [ha, hb] at hfold
      rw [List.append_nil, List.append_nil]
      exact .folded hoperands hfold hmul
  | _ =>
    obtain ⟨c, gates, more, hlower, hpure, rfl⟩ := Emitter.bind_eq_ok h
    obtain ⟨rfl, rfl⟩ := Emitter.pure_eq_ok hpure
    rw [List.append_nil]
    exact .plain (by simp) hlower

end Expression

def Side.Below (bound : Nat) : Side F → Prop
  | linear c => c.Below bound
  | factors a b => a.Below bound ∧ b.Below bound

omit [Field F] [DecidableEq F] in
theorem Side.Below.mono {side : Side F} {bound larger : Nat} (h : side.Below bound)
    (hle : bound ≤ larger) : side.Below larger := by
  cases side with
  | linear c => exact Combination.Below.mono h hle
  | factors a b => exact ⟨h.1.mono hle, h.2.mono hle⟩

variable {columnOf : String → Option Nat}

/-- Each gate reads columns before its own, so the gates can be evaluated in order. -/
theorem Expression.lowerSide_inPlace {e : Expression F} {next : Nat} {side : Side F}
    {gates : List (Gate F)} (hfree : FreeFrom columnOf next)
    (h : e.lowerSide columnOf next = .ok (side, gates)) :
    side.Below (next + gates.length) ∧ Gate.Placed next gates := by
  have hoperands : ∀ {left right : Expression F} {a b : Combination F}
      {first second : List (Gate F)}, LowersOperands columnOf left right next a b first second →
      InPlace next a (first ++ second) ∧ InPlace next b (first ++ second) := by
    intro left right a b first second hlower
    exact (lower_inPlace hfree hlower.left).append
      (lower_inPlace (hfree.later first) hlower.right)
  cases lowersSide_of_lowerSide h with
  | plain _ hlower =>
    have hplace := lower_inPlace hfree hlower
    exact ⟨hplace.below, hplace.placed⟩
  | folded hlower _ hmul =>
    obtain ⟨ha, hb⟩ := hoperands hlower
    have hplace := ha.lowerMul hb hmul
    rw [List.append_nil] at hplace
    exact ⟨hplace.below, hplace.placed⟩
  | factors hlower _ _ =>
    obtain ⟨ha, hb⟩ := hoperands hlower
    exact ⟨⟨ha.below, hb.below⟩, ha.placed⟩

/-- A gate is added only when both sides are products. -/
theorem Side.equate_inPlace {left right : Side F} {next : Nat} {gates own : List (Gate F)}
    {constraint : Constraint F} (hunit : unitColumn < next) (hplaced : Gate.Placed next gates)
    (hleft : left.Below (next + gates.length)) (hright : right.Below (next + gates.length))
    (h : left.equate right (next + gates.length) = .ok (constraint, own)) :
    constraint.Below (next + (gates ++ own).length) ∧ Gate.Placed next (gates ++ own) := by
  cases left with
  | linear l =>
    cases right with
    | linear r =>
      obtain ⟨rfl, rfl⟩ := Emitter.pure_eq_ok h
      rw [List.append_nil]
      have hpos : 0 < next + gates.length := Nat.lt_add_right _ hunit
      exact ⟨⟨Combination.below_sub hleft hright, Combination.below_constant 1 hpos,
        Combination.below_zero _⟩, hplaced⟩
    | factors x y =>
      obtain ⟨rfl, rfl⟩ := Emitter.pure_eq_ok h
      rw [List.append_nil]
      exact ⟨⟨hright.1, hright.2, hleft⟩, hplaced⟩
  | factors a b =>
    cases right with
    | linear r =>
      obtain ⟨rfl, rfl⟩ := Emitter.pure_eq_ok h
      rw [List.append_nil]
      exact ⟨⟨hleft.1, hleft.2, hright⟩, hplaced⟩
    | factors x y =>
      obtain ⟨c, product, more, hmul, hpure, rfl⟩ := Emitter.bind_eq_ok h
      obtain ⟨rfl, rfl⟩ := Emitter.pure_eq_ok hpure
      rw [List.append_nil]
      have hplace : Expression.InPlace next c (gates ++ product) :=
        Expression.InPlace.lowerMul ⟨hright.1, hplaced⟩ ⟨hright.2, hplaced⟩ hmul
      have hle : next + gates.length ≤ next + (gates ++ product).length := by
        rw [List.length_append]
        omega
      exact ⟨⟨hleft.1.mono hle, hleft.2.mono hle, hplace.below⟩, hplace.placed⟩

namespace Relation

theorem lower_equal {left right : Expression F} {next : Nat} {constraint : Constraint F}
    {gates : List (Gate F)} (h : (equal left right).lower columnOf next = .ok (constraint, gates)) :
    ∃ l r first second own, left.lowerSide columnOf next = .ok (l, first) ∧
      right.lowerSide columnOf (next + first.length) = .ok (r, second) ∧
      l.equate r (next + (first ++ second).length) = .ok (constraint, own) ∧
      gates = first ++ second ++ own := by
  obtain ⟨l, first, rest, hleft, hrest, rfl⟩ := Emitter.bind_eq_ok h
  obtain ⟨r, second, own, hright, hown, rfl⟩ := Emitter.bind_eq_ok hrest
  refine ⟨l, r, first, second, own, hleft, hright, ?_, by simp⟩
  rwa [List.length_append, ← Nat.add_assoc]

theorem lower_product {a b c : Expression F} {next : Nat} {constraint : Constraint F}
    {gates : List (Gate F)} (h : (product a b c).lower columnOf next = .ok (constraint, gates)) :
    ∃ x y z first second third, Expression.LowersOperands columnOf a b next x y first second ∧
      c.lower columnOf (next + (first ++ second).length) = .ok (z, third) ∧
      constraint = ⟨x, y, z⟩ ∧ gates = first ++ second ++ third := by
  obtain ⟨x, y, first, second, own, hoperands, hrest, rfl⟩ := Expression.lower_operands h
  obtain ⟨z, third, more, hthird, hpure, rfl⟩ := Emitter.bind_eq_ok hrest
  obtain ⟨rfl, rfl⟩ := Emitter.pure_eq_ok hpure
  exact ⟨x, y, z, first, second, third, hoperands, hthird, rfl, by simp⟩

/-- The gates of a relation take consecutive columns, and its own constraint mentions no later
one. -/
theorem lower_inPlace {relation : Relation F} {next : Nat} {constraint : Constraint F}
    {gates : List (Gate F)} (hfree : Expression.FreeFrom columnOf next)
    (h : relation.lower columnOf next = .ok (constraint, gates)) :
    constraint.Below (next + gates.length) ∧ Gate.Placed next gates := by
  cases relation with
  | equal left right =>
    obtain ⟨l, r, first, second, own, hleft, hright, hown, rfl⟩ := lower_equal h
    obtain ⟨hl, hfirst⟩ := Expression.lowerSide_inPlace hfree hleft
    obtain ⟨hr, hsecond⟩ := Expression.lowerSide_inPlace (hfree.later first) hright
    have hlength : next + (first ++ second).length = next + first.length + second.length := by
      rw [List.length_append, Nat.add_assoc]
    rw [← hlength] at hr
    exact Side.equate_inPlace hfree.unit (Gate.placed_append.mpr ⟨hfirst, hsecond⟩)
      (hl.mono (by omega)) hr hown
  | product a b c =>
    obtain ⟨x, y, z, first, second, third, hoperands, hthird, rfl, rfl⟩ := lower_product h
    obtain ⟨hx, hy⟩ := (Expression.lower_inPlace hfree hoperands.left).append
      (Expression.lower_inPlace (hfree.later first) hoperands.right)
    have hz := Expression.lower_inPlace (hfree.later (first ++ second)) hthird
    obtain ⟨hx', hz'⟩ := hx.append hz
    obtain ⟨hy', -⟩ := hy.append hz
    exact ⟨⟨hx'.below, hy'.below, hz'.below⟩, hx'.placed⟩

end Relation

end CircuitProof
