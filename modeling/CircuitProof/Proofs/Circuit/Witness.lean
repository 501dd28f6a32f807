import Mathlib.Data.List.Forall2
import CircuitProof.Circuit.Samples
import CircuitProof.Proofs.Bn254.Fields
import CircuitProof.Proofs.Circuit.Compile

/-!
# Generating a witness decides the circuit

Where all gates are solved, no denominator of the circuit is zero and the rows hold exactly if the
relations do. Where some gate cannot be solved, the first such gate is the one of the first
allocated quotient whose denominator is zero. So the generated witness, or the refusal in its place,
tells whether the circuit admits the inputs and, if not, where it fails first.
-/

namespace CircuitProof

theorem exists_split_of_forall₂ {α β : Type} {R : α → β → Prop} {items : List α}
    {before after : List β} {y : β} (h : List.Forall₂ R items (before ++ y :: after)) :
    ∃ first x rest, items = first ++ x :: rest ∧ List.Forall₂ R first before ∧ R x y := by
  have hfirst := List.forall₂_take_append items before (y :: after) h
  have hrest := List.forall₂_drop_append items before (y :: after) h
  obtain ⟨x, rest, hx, -, hdrop⟩ := List.forall₂_cons_right_iff.mp hrest
  refine ⟨items.take before.length, x, rest, ?_, hfirst, hx⟩
  rw [← hdrop, List.take_append_drop]

variable {F : Type} [Field F] [DecidableEq F] {c : Circuit F}

namespace Circuit

/-- The sides of the relations are undefined exactly where some denominator is zero. -/
theorem denominators_ne_zero_iff {env : String → F} :
    (∀ d ∈ c.denominators, d.value? env ≠ some 0) ↔
      ∀ relation ∈ c.relations, ∀ e ∈ relation.sides, e.value? env ≠ none := by
  simp only [Ne, Expression.value?_eq_none_iff, denominators, Relation.denominators,
    List.mem_flatMap, not_exists, not_and, forall_exists_index, and_imp]
  constructor
  · intro h relation hrelation e he d hd
    exact h d relation hrelation e he hd
  · intro h d relation hrelation e he hd
    exact h relation hrelation e he d hd

/-- A quotient that takes a column and divides by zero shows a denominator that is zero. -/
theorem exists_denominator_of_dividesByZero {env : String → F} {source : Expression F}
    (hmem : source ∈ c.allocations) (hzero : source.DividesByZero env) :
    ∃ d ∈ c.denominators, d.value? env = some 0 := by
  cases source with
  | div left right => exact ⟨right, mem_denominators_of_mem_allocations hmem, hzero⟩
  | _ => exact hzero.elim

namespace Compiled

variable {s : ConstraintSystem F} {blocks : List (Block F)} {shown hidden : List F}

theorem simulates (h : c.Compiled s blocks)
    (hlength : (shown ++ hidden).length = c.inputNames.length) (aux : List F) :
    SimulatesBlocks (c.environment shown hidden) (valueAt (1 :: (shown ++ hidden) ++ aux))
      c.relations c.allocations blocks :=
  lowerRelations_simulates (reflects_environment hlength aux) h.lowered

/-- Where all gates are solved, the rows hold if the gates' rows and the relations' rows do. -/
theorem rows_hold_iff (h : c.Compiled s blocks) {z : Nat → F}
    (hsolved : ∀ gate ∈ s.gates, gate.Solved z) :
    (∀ constraint ∈ blocks.flatMap Block.constraints, constraint.Holds z) ↔
      ∀ block ∈ blocks, block.constraint.Holds z := by
  constructor
  · intro hall block hblock
    exact hall _ (List.mem_flatMap.mpr ⟨block, hblock, Block.mem_constraints.mpr (.inr rfl)⟩)
  · intro hall constraint hconstraint
    obtain ⟨block, hblock, hmem⟩ := List.mem_flatMap.mp hconstraint
    rcases Block.mem_constraints.mp hmem with ⟨gate, hgate, rfl⟩ | rfl
    · have hgates : gate ∈ s.gates := by
        rw [h.gates_eq]
        exact List.mem_flatMap.mpr ⟨block, hblock, hgate⟩
      exact (hsolved gate hgates).2
    · exact hall block hblock

theorem denominators_ne_zero_of_solved (h : c.Compiled s blocks)
    (hlength : (shown ++ hidden).length = c.inputNames.length) {aux : List F}
    (hsolved : ∀ gate ∈ s.gates, gate.Solved (valueAt (1 :: (shown ++ hidden) ++ aux))) :
    ∀ d ∈ c.denominators, d.value? (c.environment shown hidden) ≠ some 0 := by
  rw [h.gates_eq] at hsolved
  exact denominators_ne_zero_iff.mpr ((h.simulates hlength aux).value hsolved)

/-- Where all gates are solved, the system's rows say what the circuit says. -/
theorem rows_hold_iff_admits (h : c.Compiled s blocks)
    (hlength : (shown ++ hidden).length = c.inputNames.length) {aux : List F}
    (hsolved : ∀ gate ∈ s.gates, gate.Solved (valueAt (1 :: (shown ++ hidden) ++ aux))) :
    (∀ constraint ∈ blocks.flatMap Block.constraints,
        constraint.Holds (valueAt (1 :: (shown ++ hidden) ++ aux))) ↔ c.Admits shown hidden := by
  have hdenominators := h.denominators_ne_zero_of_solved hlength hsolved
  rw [h.rows_hold_iff hsolved]
  rw [h.gates_eq] at hsolved
  have hrelations := (h.simulates hlength aux).holds_iff hsolved
  constructor
  · intro hrows
    refine ⟨hdenominators, fun relation hrelation => ?_⟩
    obtain ⟨i, hi, rfl⟩ := List.getElem_of_mem hrelation
    have hi' : i < blocks.length := hrelations.length_eq ▸ hi
    exact (hrelations.get hi hi').mp (hrows _ (List.getElem_mem hi'))
  · intro hadmits block hblock
    obtain ⟨i, hi, rfl⟩ := List.getElem_of_mem hblock
    have hi' : i < c.relations.length := hrelations.length_eq ▸ hi
    exact (hrelations.get hi' hi).mpr (hadmits.relations_hold _ (List.getElem_mem hi'))

/-- Solved gates hold the values of the allocated expressions. -/
theorem auxiliary_values (h : c.Compiled s blocks)
    (hlength : (shown ++ hidden).length = c.inputNames.length) {aux : List F}
    (haux : aux.length = s.gates.length)
    (hsolved : ∀ gate ∈ s.gates, gate.Solved (valueAt (1 :: (shown ++ hidden) ++ aux))) :
    aux.map some = c.allocations.map fun e => e.value? (c.environment shown hidden) := by
  have htraced := (h.simulates hlength aux).traced
  rw [← h.gates_eq] at htraced
  rw [htraced.values hsolved]
  refine List.ext_getElem (by simp [haux]) fun i hi hi' => ?_
  have hgate : i < s.gates.length := by simpa using hi'
  have htarget : s.gates[i].target = 1 + c.inputNames.length + i :=
    h.placed.target_of_getElem? (List.getElem?_eq_getElem hgate)
  have hcolumn : 1 + c.inputNames.length + i = (1 :: (shown ++ hidden)).length + i := by
    rw [List.length_cons, hlength]
    omega
  have haux_lt : i < aux.length := by simpa using hi
  simp only [List.getElem_map, htarget, hcolumn, valueAt]
  rw [List.getElem?_append_right (by omega), Nat.add_sub_cancel_left,
    List.getElem?_eq_getElem haux_lt, Option.getD_some]

theorem length_assignment (h : c.Compiled s blocks)
    (hlength : (shown ++ hidden).length = c.inputNames.length) {aux : List F}
    (haux : aux.length = s.gates.length) :
    (1 :: (shown ++ hidden) ++ aux).length = s.numColumns := by
  rw [h.numColumns_eq, List.length_append, List.length_cons, hlength, haux]
  omega

theorem placed_inputs (h : c.Compiled s blocks)
    (hlength : (shown ++ hidden).length = c.inputNames.length) :
    Gate.Placed (1 :: (shown ++ hidden)).length s.gates := by
  rw [List.length_cons, hlength, Nat.add_comm]
  exact h.placed

theorem generateWitness_of_solve (hshown : shown.length = s.numShown)
    (hhidden : hidden.length = s.numHidden) {z : List F} (hlength : z.length = s.numColumns)
    (hsolve : ConstraintSystem.solve s.gates (1 :: (shown ++ hidden)) = .ok z) :
    s.generateWitness shown hidden = s.check z := by
  simp [ConstraintSystem.generateWitness, hshown, hhidden, hsolve, hlength, bind, Except.bind]

theorem generateWitness_of_solve_error (hshown : shown.length = s.numShown)
    (hhidden : hidden.length = s.numHidden) {e : WitnessError}
    (hsolve : ConstraintSystem.solve s.gates (1 :: (shown ++ hidden)) = Failure.reject e) :
    s.generateWitness shown hidden = Failure.reject e := by
  simp [ConstraintSystem.generateWitness, hshown, hhidden, hsolve, Failure.reject, bind,
    Except.bind]

end Compiled

/-- The ways in which generating a witness can end, each with what it tells about the circuit. -/
inductive Decides (c : Circuit F) (s : ConstraintSystem F) (shown hidden : List F) :
    Except (Failure WitnessError) (Witness F) → Prop where
  | admitted (aux : List F) :
    c.Admits shown hidden →
      aux.map some = c.allocations.map (fun e => e.value? (c.environment shown hidden)) →
      Decides c s shown hidden (.ok ⟨1 :: (shown ++ hidden ++ aux), s.numShown⟩)
  | undefined (place : Nat) :
    (∃ d ∈ c.denominators, d.value? (c.environment shown hidden) = some 0) →
      FirstAt (fun e => e.DividesByZero (c.environment shown hidden)) c.allocations place →
      Decides c s shown hidden
        (Failure.reject (.unresolvableAuxiliary (1 + (shown ++ hidden).length + place)))
  | violated (row relation : Nat) :
    (∀ d ∈ c.denominators, d.value? (c.environment shown hidden) ≠ some 0) →
      FirstAt (fun r => ¬ r.Holds (c.environment shown hidden)) c.relations relation →
      LastAt (· = relation) s.relationOfRow row →
      Decides c s shown hidden (Failure.reject (.constraintViolation row relation))

namespace Decides

variable {s : ConstraintSystem F} {shown hidden : List F}
  {outcome : Except (Failure WitnessError) (Witness F)}

theorem exists_ok_iff (h : c.Decides s shown hidden outcome) :
    (∃ w, outcome = .ok w) ↔ c.Admits shown hidden := by
  cases h with
  | admitted aux hadmits _ => exact ⟨fun _ => hadmits, fun _ => ⟨_, rfl⟩⟩
  | undefined place hzero _ =>
    obtain ⟨d, hd, hvalue⟩ := hzero
    constructor
    · rintro ⟨w, hw⟩
      cases hw
    · intro hadmits
      exact absurd hvalue (hadmits.denominators_ne_zero d hd)
  | violated row relation _ hfalse _ =>
    obtain ⟨r, hr, hfails⟩ := hfalse.here
    constructor
    · rintro ⟨w, hw⟩
      cases hw
    · intro hadmits
      exact absurd (hadmits.relations_hold r (List.mem_of_getElem? hr)) hfails

theorem eq_of_ok (h : c.Decides s shown hidden outcome) {w : Witness F} (hw : outcome = .ok w) :
    ∃ aux, w = ⟨1 :: (shown ++ hidden ++ aux), s.numShown⟩ ∧
      aux.map some = c.allocations.map fun e => e.value? (c.environment shown hidden) := by
  cases h with
  | admitted aux _ hvalues => exact ⟨aux, (Except.ok.inj hw).symm, hvalues⟩
  | undefined => cases hw
  | violated => cases hw

/-- The first gate that cannot be solved stands for the first quotient that divides by zero. -/
theorem eq_of_denominator (h : c.Decides s shown hidden outcome)
    (hzero : ∃ d ∈ c.denominators, d.value? (c.environment shown hidden) = some 0) :
    ∃ place,
      FirstAt (fun e => e.DividesByZero (c.environment shown hidden)) c.allocations place ∧
      outcome = Failure.reject (.unresolvableAuxiliary (1 + (shown ++ hidden).length + place)) := by
  obtain ⟨d, hd, hvalue⟩ := hzero
  cases h with
  | admitted aux hadmits _ => exact absurd hvalue (hadmits.denominators_ne_zero d hd)
  | undefined place _ hfirst => exact ⟨place, hfirst, rfl⟩
  | violated row relation hdenominators _ _ => exact absurd hvalue (hdenominators d hd)

/-- Rows of gates hold once these are solved, so the row that fails is the last one of its relation.
-/
theorem eq_of_relation (h : c.Decides s shown hidden outcome)
    (hdenominators : ∀ d ∈ c.denominators, d.value? (c.environment shown hidden) ≠ some 0)
    (hfalse : ∃ r ∈ c.relations, ¬ r.Holds (c.environment shown hidden)) :
    ∃ row relation,
      FirstAt (fun r => ¬ r.Holds (c.environment shown hidden)) c.relations relation ∧
      LastAt (· = relation) s.relationOfRow row ∧
      outcome = Failure.reject (.constraintViolation row relation) := by
  obtain ⟨r, hr, hfails⟩ := hfalse
  cases h with
  | admitted aux hadmits _ => exact absurd (hadmits.relations_hold r hr) hfails
  | undefined place hzero _ =>
    obtain ⟨d, hd, hvalue⟩ := hzero
    exact absurd hvalue (hdenominators d hd)
  | violated row relation _ hfirst hlast => exact ⟨row, relation, hfirst, hlast, rfl⟩

end Decides

namespace Compiled

variable {s : ConstraintSystem F} {blocks : List (Block F)} {shown hidden : List F}

/-- The check of a vector that solves all gates decides between a witness and a false relation. -/
theorem check_decides (h : c.Compiled s blocks)
    (hlength : (shown ++ hidden).length = c.inputNames.length) {aux : List F}
    (haux : aux.length = s.gates.length)
    (hsolved : ∀ gate ∈ s.gates, gate.Solved (valueAt (1 :: (shown ++ hidden) ++ aux))) :
    c.Decides s shown hidden (s.check (1 :: (shown ++ hidden) ++ aux)) := by
  have hcolumns := h.length_assignment hlength haux
  by_cases hrows : ∀ constraint ∈ blocks.flatMap Block.constraints,
      constraint.Holds (valueAt (1 :: (shown ++ hidden) ++ aux))
  · rw [h.check_of_holds hcolumns hrows]
    exact .admitted aux ((h.rows_hold_iff_admits hlength hsolved).mp hrows)
      (h.auxiliary_values hlength haux hsolved)
  · obtain ⟨failed, hmem, hfails⟩ : ∃ failed ∈ blocks.flatMap Block.constraints,
        ¬ failed.Holds (valueAt (1 :: (shown ++ hidden) ++ aux)) := by
      push Not at hrows
      exact hrows
    obtain ⟨row, hfirst⟩ : ∃ row, FirstAt
        (fun k : Constraint F => ¬ k.Holds (valueAt (1 :: (shown ++ hidden) ++ aux)))
        (blocks.flatMap Block.constraints) row := exists_firstAt hmem hfails
    have hdenominators := h.denominators_ne_zero_of_solved hlength hsolved
    rw [h.gates_eq] at hsolved
    obtain ⟨before, block, after, rfl, hbefore, hblock, rfl⟩ :=
      exists_block_of_firstAt (fun gate hgate => (hsolved gate hgate).2) hfirst
    obtain ⟨earlier, relation, later, hrelations, hholds, hiff⟩ :=
      exists_split_of_forall₂ ((h.simulates hlength aux).holds_iff hsolved)
    have hlast : LastAt (· = before.length) s.relationOfRow
        ((before.flatMap Block.constraints).length + block.gates.length) := by
      rw [h.relationOfRow_eq]
      exact lastAt_labels before block after
    have hfalse : FirstAt (fun r => ¬ r.Holds (c.environment shown hidden)) c.relations
        before.length := by
      rw [hrelations, ← hholds.length_eq]
      refine firstAt_append (fun r hr => not_not.mpr ?_) fun hrelation =>
        hblock (hiff.mpr hrelation)
      obtain ⟨i, hi, rfl⟩ := List.getElem_of_mem hr
      have hi' : i < before.length := hholds.length_eq ▸ hi
      exact (hholds.get hi hi').mp (hbefore _ (List.getElem_mem hi'))
    obtain ⟨label, hlabel, rfl⟩ := hlast.here
    rw [h.check_of_firstAt hcolumns hlabel hfirst]
    exact .violated _ _ hdenominators hfalse hlast

/-- The witness generator runs through gates and rows as the circuit runs through its quotients and
relations. -/
theorem generateWitness_decides (h : c.Compiled s blocks) (hshown : shown.length = s.numShown)
    (hhidden : hidden.length = s.numHidden) :
    c.Decides s shown hidden (s.generateWitness shown hidden) := by
  have hlength : (shown ++ hidden).length = c.inputNames.length := by
    rw [List.length_append, length_inputNames, hshown, hhidden, h.numShown_eq, h.numHidden_eq]
  rcases ConstraintSystem.solve_cases (h.placed_inputs hlength) with
    ⟨aux, hsolve, haux, hsolved⟩ | ⟨before, gate, after, aux, hsplit, -, hbefore, hzero, hsolve⟩
  · rw [generateWitness_of_solve hshown hhidden (h.length_assignment hlength haux) hsolve]
    exact h.check_decides hlength haux hsolved
  · rw [generateWitness_of_solve_error hshown hhidden hsolve]
    have htraced := (h.simulates hlength aux).traced
    rw [← h.gates_eq, hsplit] at htraced
    obtain ⟨earlier, source, later, hallocations, hplace, hsource, hearlier⟩ :=
      htraced.first_dividesByZero hbefore hzero
    have hfirst : FirstAt (fun e => e.DividesByZero (c.environment shown hidden)) c.allocations
        before.length := by
      rw [hallocations, ← hplace]
      exact firstAt_append hearlier hsource
    have hmem : source ∈ c.allocations := by simp [hallocations]
    rw [List.length_cons, Nat.add_comm (shown ++ hidden).length 1]
    exact .undefined _ (exists_denominator_of_dividesByZero hmem hsource) hfirst

end Compiled

/-- Generating a witness decides a compiled circuit. A witness comes out exactly if the circuit
admits the inputs, and holds them behind the constant one, followed by the values of the products
and quotients that took a column. If some denominator is zero, the refusal names the first column
whose quotient has such a denominator. If none is, it names the first false relation and its last
row. -/
theorem generateWitness_decides_circuit {policy : UnconstrainedPolicy} {s : ConstraintSystem F}
    (h : c.compile policy = .ok s) {shown hidden : List F}
    (hshown : shown.length = (c.names .shown).length)
    (hhidden : hidden.length = (c.names .hidden).length) :
    ((∃ w, s.generateWitness shown hidden = .ok w) ↔ c.Admits shown hidden) ∧
    (∀ w, s.generateWitness shown hidden = .ok w →
      ∃ aux, w = ⟨1 :: (shown ++ hidden ++ aux), shown.length⟩ ∧
        aux.map some = c.allocations.map fun e => e.value? (c.environment shown hidden)) ∧
    ((∃ d ∈ c.denominators, d.value? (c.environment shown hidden) = some 0) →
      ∃ place,
        FirstAt (fun e => e.DividesByZero (c.environment shown hidden)) c.allocations place ∧
        s.generateWitness shown hidden =
          Failure.reject (.unresolvableAuxiliary (1 + (shown ++ hidden).length + place))) ∧
    ((∀ d ∈ c.denominators, d.value? (c.environment shown hidden) ≠ some 0) →
      (∃ r ∈ c.relations, ¬ r.Holds (c.environment shown hidden)) →
      ∃ row relation,
        FirstAt (fun r => ¬ r.Holds (c.environment shown hidden)) c.relations relation ∧
        LastAt (· = relation) s.relationOfRow row ∧
        s.generateWitness shown hidden = Failure.reject (.constraintViolation row relation)) := by
  obtain ⟨blocks, hblocks⟩ := compiled_of_compile h
  rw [← hblocks.numShown_eq] at hshown
  rw [← hblocks.numHidden_eq] at hhidden
  have hdecides := hblocks.generateWitness_decides hshown hhidden
  rw [hshown]
  exact ⟨hdecides.exists_ok_iff, fun w => hdecides.eq_of_ok, hdecides.eq_of_denominator,
    hdecides.eq_of_relation⟩

theorem generateWitness_decides_cubic :
    ∃ s, (cubic : Circuit Scalar).compile .reject = .ok s ∧
      ((∃ w, s.generateWitness [35] [3] = .ok w) ↔ (cubic : Circuit Scalar).Admits [35] [3]) := by
  obtain ⟨s, hs⟩ : ∃ s, (cubic : Circuit Scalar).compile .reject = .ok s := ⟨_, rfl⟩
  exact ⟨s, hs, (generateWitness_decides_circuit hs rfl rfl).1⟩

end Circuit

end CircuitProof
