import CircuitProof.Proofs.Circuit.Witness

/-!
# What an accepted assignment tells

An assignment that satisfies every row of a compiled system solves its gates unless it divides zero
by zero: a quotient's row then holds for every value of its column. Apart from that, the inputs
determine the assignment, and it is the one that generating a witness yields.
-/

namespace CircuitProof

namespace ConstraintSystem

variable {F : Type} (s : ConstraintSystem F)

def shownColumns (z : List F) : List F := (z.drop 1).take s.numShown

def hiddenColumns (z : List F) : List F := (z.drop (1 + s.numShown)).take s.numHidden

def auxiliaryColumns (z : List F) : List F := z.drop (1 + s.numShown + s.numHidden)

variable {s}

theorem length_shownColumns {z : List F} (h : z.length = s.numColumns) :
    (s.shownColumns z).length = s.numShown := by
  rw [numColumns] at h
  rw [shownColumns, List.length_take, List.length_drop]
  omega

theorem length_hiddenColumns {z : List F} (h : z.length = s.numColumns) :
    (s.hiddenColumns z).length = s.numHidden := by
  rw [numColumns] at h
  rw [hiddenColumns, List.length_take, List.length_drop]
  omega

/-- The statement's columns of a vector that starts with one. -/
theorem take_numStatement [One F] {z : List F} (hunit : z.head? = some 1) :
    z.take s.numStatement = 1 :: s.shownColumns z := by
  obtain ⟨rest, rfl⟩ := List.head?_eq_some_iff.mp hunit
  rw [numStatement, Nat.add_comm, List.take_succ_cons]
  rfl

/-- An assignment consists of the constant one, the inputs and the other columns. -/
theorem eq_columns [One F] {z : List F} (hunit : z.head? = some 1) :
    z = 1 :: (s.shownColumns z ++ s.hiddenColumns z) ++ s.auxiliaryColumns z := by
  cases z with
  | nil => cases hunit
  | cons unit rest =>
    obtain rfl : unit = 1 := by simpa using hunit
    have hshown : s.shownColumns (1 :: rest) = rest.take s.numShown := rfl
    have hhidden : s.hiddenColumns (1 :: rest) = (rest.drop s.numShown).take s.numHidden := by
      rw [hiddenColumns, Nat.add_comm 1, List.drop_succ_cons]
    have hauxiliary : s.auxiliaryColumns (1 :: rest) =
        (rest.drop s.numShown).drop s.numHidden := by
      rw [auxiliaryColumns, List.drop_drop,
        show 1 + s.numShown + s.numHidden = s.numShown + s.numHidden + 1 by omega,
        List.drop_succ_cons]
    rw [hshown, hhidden, hauxiliary, List.cons_append, List.append_assoc, List.take_append_drop,
      List.take_append_drop]

end ConstraintSystem

/-- Vectors of one length are told apart by their entries. -/
theorem eq_of_valueAt_eq {F : Type} [Zero F] {z z' : List F} (hlength : z.length = z'.length)
    (h : ∀ column < z.length, valueAt z column = valueAt z' column) : z = z' := by
  refine List.ext_getElem hlength fun i hi hi' => ?_
  have hvalue := h i hi
  rwa [valueAt, valueAt, List.getElem?_eq_getElem hi, List.getElem?_eq_getElem hi',
    Option.getD_some, Option.getD_some] at hvalue

namespace Circuit

namespace Compiled

variable {F : Type} [Field F] [DecidableEq F] {c : Circuit F} {s : ConstraintSystem F}
  {blocks : List (Block F)}

/-- A vector that is supplied whole is held against the constraints only. -/
theorem witnessOfValues_eq_ok_iff (h : c.Compiled s blocks) {z : List F} {w : Witness F} :
    s.witnessOfValues z = .ok w ↔ z.length = s.numColumns ∧ z.head? = some 1 ∧
      w = ⟨z, s.numShown⟩ ∧
        ∀ constraint ∈ blocks.flatMap Block.constraints, constraint.Holds (valueAt z) := by
  rw [ConstraintSystem.witnessOfValues]
  split
  · next hlength =>
    constructor
    · intro herror
      cases herror
    · intro hok
      exact absurd hok.1 hlength
  · next hlength =>
    have hlength : z.length = s.numColumns := not_not.mp hlength
    split
    · next hunit =>
      constructor
      · intro herror
        cases herror
      · intro hok
        exact absurd hok.2.1 hunit
    · next hunit =>
      rw [h.check_eq_ok_iff hlength, and_iff_right hlength, and_iff_right (not_not.mp hunit)]

theorem holds_of_mem_gates (h : c.Compiled s blocks) {z : Nat → F}
    (hrows : ∀ constraint ∈ blocks.flatMap Block.constraints, constraint.Holds z)
    {gate : Gate F} (hgate : gate ∈ s.gates) : gate.constraint.Holds z := by
  rw [h.gates_eq] at hgate
  obtain ⟨block, hblock, hmem⟩ := List.mem_flatMap.mp hgate
  exact hrows _ (List.mem_flatMap.mpr
    ⟨block, hblock, Block.mem_constraints.mpr (.inl ⟨gate, hmem, rfl⟩)⟩)

/-- Where all rows hold, the gates are solved unless one divides zero by zero. -/
theorem solved_of_holds (h : c.Compiled s blocks) {z : Nat → F}
    (hrows : ∀ constraint ∈ blocks.flatMap Block.constraints, constraint.Holds z)
    (hfinite : ∀ gate ∈ s.gates, ¬ gate.Indeterminate z) : ∀ gate ∈ s.gates, gate.Solved z := by
  intro gate hgate
  have hrow := h.holds_of_mem_gates hrows hgate
  exact ⟨fun hzero => hfinite gate hgate (Gate.indeterminate_of_holds hrow hzero), hrow⟩

/-- Two assignments that satisfy every row and have the same inputs are equal as soon as one of them
solves the gates. -/
theorem eq_of_inputs_eq (h : c.Compiled s blocks) {inputs aux aux' : List F}
    (hinputs : inputs.length = c.inputNames.length) (haux : aux.length = s.gates.length)
    (haux' : aux'.length = s.gates.length)
    (hsolved : ∀ gate ∈ s.gates, gate.Solved (valueAt (1 :: inputs ++ aux)))
    (hrows : ∀ gate ∈ s.gates, gate.constraint.Holds (valueAt (1 :: inputs ++ aux'))) :
    1 :: inputs ++ aux = 1 :: inputs ++ aux' := by
  have hbefore : ∀ column < 1 + c.inputNames.length,
      valueAt (1 :: inputs ++ aux) column = valueAt (1 :: inputs ++ aux') column := by
    intro column hcolumn
    have hlt : column < (1 :: inputs).length := by
      rw [List.length_cons]
      omega
    rw [valueAt_append_left _ _ hlt, valueAt_append_left _ _ hlt]
  have hall := h.placed.agree_of_solved hbefore hsolved hrows
  refine eq_of_valueAt_eq ?_ fun column hcolumn => hall column ?_
  · rw [List.length_append, List.length_append, haux, haux']
  · rw [List.length_append, List.length_cons, haux, hinputs] at hcolumn
    omega

/-- A generated witness is an assignment that satisfies every row and solves the gates. -/
theorem exists_aux_of_generateWitness (h : c.Compiled s blocks) {shown hidden : List F}
    {w : Witness F} (hw : s.generateWitness shown hidden = .ok w) :
    shown.length = s.numShown ∧ hidden.length = s.numHidden ∧
      ∃ aux, aux.length = s.gates.length ∧ w = ⟨1 :: (shown ++ hidden) ++ aux, s.numShown⟩ ∧
        (∀ gate ∈ s.gates, gate.Solved (valueAt (1 :: (shown ++ hidden) ++ aux))) ∧
        ∀ constraint ∈ blocks.flatMap Block.constraints,
          constraint.Holds (valueAt (1 :: (shown ++ hidden) ++ aux)) := by
  by_cases hshown : shown.length = s.numShown
  · by_cases hhidden : hidden.length = s.numHidden
    · have hlength : (shown ++ hidden).length = c.inputNames.length := by
        rw [List.length_append, length_inputNames, hshown, hhidden, h.numShown_eq,
          h.numHidden_eq]
      refine ⟨hshown, hhidden, ?_⟩
      rcases ConstraintSystem.solve_cases (h.placed_inputs hlength) with
        ⟨aux, hsolve, haux, hsolved⟩ | ⟨before, gate, after, aux, -, -, -, -, hsolve⟩
      · have hcolumns := h.length_assignment hlength haux
        rw [generateWitness_of_solve hshown hhidden hcolumns hsolve,
          h.check_eq_ok_iff hcolumns] at hw
        exact ⟨aux, haux, hw.1, hsolved, hw.2⟩
      · rw [generateWitness_of_solve_error hshown hhidden hsolve] at hw
        cases hw
    · simp [ConstraintSystem.generateWitness, hshown, hhidden, Failure.reject] at hw
  · simp [ConstraintSystem.generateWitness, hshown, Failure.reject] at hw

/-- The parts of an accepted assignment. -/
structure Accepts (s : ConstraintSystem F) (blocks : List (Block F)) (z : List F)
    (shown hidden aux : List F) : Prop where
  eq_append : z = 1 :: (shown ++ hidden) ++ aux
  length_shown : shown.length = s.numShown
  length_hidden : hidden.length = s.numHidden
  length_aux : aux.length = s.gates.length
  rows : ∀ constraint ∈ blocks.flatMap Block.constraints,
    constraint.Holds (valueAt (1 :: (shown ++ hidden) ++ aux))

/-- An accepted vector splits into the unit, the shown, the hidden and the auxiliary columns. -/
theorem accepts_of_witnessOfValues (h : c.Compiled s blocks) {z : List F} {w : Witness F}
    (hw : s.witnessOfValues z = .ok w) :
    Accepts s blocks z (s.shownColumns z) (s.hiddenColumns z) (s.auxiliaryColumns z) ∧
      w = ⟨z, s.numShown⟩ := by
  obtain ⟨hlength, hunit, rfl, hrows⟩ := h.witnessOfValues_eq_ok_iff.mp hw
  have heq := ConstraintSystem.eq_columns (s := s) hunit
  refine ⟨⟨heq, ConstraintSystem.length_shownColumns hlength,
    ConstraintSystem.length_hiddenColumns hlength, ?_, ?_⟩, rfl⟩
  · have hcolumns := h.numColumns_eq
    rw [length_inputNames, ← h.numShown_eq, ← h.numHidden_eq] at hcolumns
    rw [ConstraintSystem.auxiliaryColumns, List.length_drop]
    omega
  · rw [← heq]
    exact hrows

namespace Accepts

variable {z shown hidden aux : List F}

theorem length_inputs (ha : Accepts s blocks z shown hidden aux) (h : c.Compiled s blocks) :
    (shown ++ hidden).length = c.inputNames.length := by
  rw [List.length_append, length_inputNames, ha.length_shown, ha.length_hidden, h.numShown_eq,
    h.numHidden_eq]

/-- Where every gate is solved, the gates give the auxiliary columns back. -/
theorem generateWitness_eq (ha : Accepts s blocks z shown hidden aux) (h : c.Compiled s blocks)
    (hsolved : ∀ gate ∈ s.gates, gate.Solved (valueAt (1 :: (shown ++ hidden) ++ aux))) :
    s.generateWitness shown hidden = .ok ⟨z, s.numShown⟩ := by
  have hlength := ha.length_inputs h
  have hcolumns := h.length_assignment hlength ha.length_aux
  have hsolve := ConstraintSystem.solve_of_solved (h.placed_inputs hlength) ha.length_aux hsolved
  rw [generateWitness_of_solve ha.length_shown ha.length_hidden hcolumns hsolve,
    h.check_of_holds hcolumns ha.rows, ha.eq_append]

/-- The circuit admits the inputs of an accepted assignment exactly if the assignment solves the
gates. -/
theorem solved_iff_admits (ha : Accepts s blocks z shown hidden aux) (h : c.Compiled s blocks) :
    (∀ gate ∈ s.gates, gate.Solved (valueAt (1 :: (shown ++ hidden) ++ aux))) ↔
      c.Admits shown hidden := by
  have hlength := ha.length_inputs h
  constructor
  · intro hsolved
    exact (h.rows_hold_iff_admits hlength hsolved).mp ha.rows
  · intro hadmits
    have hdecides := h.generateWitness_decides ha.length_shown ha.length_hidden
    obtain ⟨w, hw⟩ := hdecides.exists_ok_iff.mpr hadmits
    obtain ⟨-, -, aux', haux', -, hsolved, -⟩ := h.exists_aux_of_generateWitness hw
    have heq := h.eq_of_inputs_eq hlength haux' ha.length_aux hsolved
      fun gate hgate => h.holds_of_mem_gates ha.rows hgate
    rwa [heq] at hsolved

/-- The rows hold, so a denominator of zero forces a numerator of zero: that is the only way to be
unsolved. -/
theorem solved_iff_finite (ha : Accepts s blocks z shown hidden aux) (h : c.Compiled s blocks) :
    (∀ gate ∈ s.gates, gate.Solved (valueAt (1 :: (shown ++ hidden) ++ aux))) ↔
      ∀ gate ∈ s.gates, ¬ gate.Indeterminate (valueAt z) := by
  rw [← ha.eq_append]
  constructor
  · intro hsolved gate hgate hindeterminate
    exact (hsolved gate hgate).1 hindeterminate.dividesByZero
  · have hrows := ha.rows
    rw [← ha.eq_append] at hrows
    exact h.solved_of_holds hrows

end Accepts

end Compiled

variable {F : Type} [Field F] [DecidableEq F] {c : Circuit F}

/-- A generated witness is an assignment that the system accepts. An accepted assignment is the
witness generated from its inputs, unless one of its quotients is zero by zero; apart from that, the
inputs determine the other columns. -/
theorem generated_eq_accepted {policy : UnconstrainedPolicy} {s : ConstraintSystem F}
    (h : c.compile policy = .ok s) :
    (∀ shown hidden w, s.generateWitness shown hidden = .ok w →
      s.witnessOfValues w.values = .ok w) ∧
    (∀ z w, s.witnessOfValues z = .ok w →
      s.generateWitness (s.shownColumns z) (s.hiddenColumns z) = .ok w ∨
        ∃ gate ∈ s.gates, gate.Indeterminate (valueAt z)) ∧
    ∀ z z' w w', s.witnessOfValues z = .ok w → s.witnessOfValues z' = .ok w' →
      s.shownColumns z = s.shownColumns z' → s.hiddenColumns z = s.hiddenColumns z' →
      (∀ gate ∈ s.gates, ¬ gate.Indeterminate (valueAt z)) → z = z' := by
  obtain ⟨blocks, hblocks⟩ := compiled_of_compile h
  refine ⟨fun shown hidden w hw => ?_, fun z w hw => ?_,
    fun z z' w w' hw hw' hshown hhidden hz => ?_⟩
  · obtain ⟨hshown, hhidden, aux, haux, rfl, -, hrows⟩ := hblocks.exists_aux_of_generateWitness hw
    have hlength : (shown ++ hidden).length = c.inputNames.length := by
      rw [List.length_append, length_inputNames, hshown, hhidden, hblocks.numShown_eq,
        hblocks.numHidden_eq]
    exact hblocks.witnessOfValues_eq_ok_iff.mpr
      ⟨hblocks.length_assignment hlength haux, rfl, rfl, hrows⟩
  · obtain ⟨haccepts, rfl⟩ := hblocks.accepts_of_witnessOfValues hw
    by_cases hz : ∀ gate ∈ s.gates, ¬ gate.Indeterminate (valueAt z)
    · exact .inl (haccepts.generateWitness_eq hblocks ((haccepts.solved_iff_finite hblocks).mpr hz))
    · push Not at hz
      exact .inr hz
  · obtain ⟨haccepts, -⟩ := hblocks.accepts_of_witnessOfValues hw
    obtain ⟨haccepts', -⟩ := hblocks.accepts_of_witnessOfValues hw'
    have hsolved := (haccepts.solved_iff_finite hblocks).mpr hz
    rw [haccepts.eq_append, haccepts'.eq_append]
    rw [← hshown, ← hhidden] at haccepts' ⊢
    exact hblocks.eq_of_inputs_eq (haccepts.length_inputs hblocks) haccepts.length_aux
      haccepts'.length_aux hsolved fun gate hgate =>
        hblocks.holds_of_mem_gates haccepts'.rows hgate

def selfQuotient : Circuit Scalar where
  name := "self-quotient"
  declarations := [⟨"y", .shown⟩, ⟨"x", .hidden⟩]
  relations := [.equal (.div (.signal "x") (.signal "x")) (.signal "y")]

def selfQuotientSystem : ConstraintSystem Scalar :=
  selfQuotient.systemOf
    [⟨[.quotient 3 (.column 2) (.column 2)], ⟨.column 3 - .column 1, .constant 1, 0⟩⟩]

theorem selfQuotient_compile : selfQuotient.compile .reject = .ok selfQuotientSystem := by
  decide +kernel

theorem selfQuotientSystem_generates :
    selfQuotientSystem.generateWitness [1] [7] = .ok ⟨[1, 1, 7, 1], 1⟩ := by
  decide +kernel

theorem generated_eq_accepted_selfQuotient :
    selfQuotient.compile .reject = .ok selfQuotientSystem ∧
      selfQuotientSystem.witnessOfValues [1, 1, 7, 1] = .ok ⟨[1, 1, 7, 1], 1⟩ := by
  have hagree := generated_eq_accepted selfQuotient_compile
  exact ⟨selfQuotient_compile, hagree.1 [1] [7] _ selfQuotientSystem_generates⟩

/-- The circuit admits the inputs of an accepted assignment exactly if none of the assignment's
quotients is zero by zero. So it admits shown inputs, with some hidden ones, exactly if such an
assignment is accepted. -/
theorem admits_iff_accepted {policy : UnconstrainedPolicy} {s : ConstraintSystem F}
    (h : c.compile policy = .ok s) :
    (∀ z w, s.witnessOfValues z = .ok w →
      (c.Admits (s.shownColumns z) (s.hiddenColumns z) ↔
        ∀ gate ∈ s.gates, ¬ gate.Indeterminate (valueAt z))) ∧
    ∀ shown : List F,
      (∃ hidden, shown.length = (c.names .shown).length ∧
          hidden.length = (c.names .hidden).length ∧ c.Admits shown hidden) ↔
        ∃ z w, s.witnessOfValues z = .ok w ∧ w.shown = shown ∧
          ∀ gate ∈ s.gates, ¬ gate.Indeterminate (valueAt z) := by
  obtain ⟨blocks, hblocks⟩ := compiled_of_compile h
  refine ⟨fun z w hw => ?_, fun shown => ⟨?_, ?_⟩⟩
  · obtain ⟨haccepts, -⟩ := hblocks.accepts_of_witnessOfValues hw
    rw [← haccepts.solved_iff_admits hblocks, haccepts.solved_iff_finite hblocks]
  · rintro ⟨hidden, hshown, hhidden, hadmits⟩
    rw [← hblocks.numShown_eq] at hshown
    rw [← hblocks.numHidden_eq] at hhidden
    obtain ⟨w, hw⟩ := (hblocks.generateWitness_decides hshown hhidden).exists_ok_iff.mpr hadmits
    obtain ⟨-, -, aux, haux, rfl, hsolved, hrows⟩ := hblocks.exists_aux_of_generateWitness hw
    have haccepts : Compiled.Accepts s blocks (1 :: (shown ++ hidden) ++ aux) shown hidden aux :=
      ⟨rfl, hshown, hhidden, haux, hrows⟩
    refine ⟨_, _, hblocks.witnessOfValues_eq_ok_iff.mpr
      ⟨hblocks.length_assignment (haccepts.length_inputs hblocks) haux, rfl, rfl, hrows⟩, ?_,
      (haccepts.solved_iff_finite hblocks).mp hsolved⟩
    simp [Witness.shown, ← hshown]
  · rintro ⟨z, w, hw, rfl, hz⟩
    obtain ⟨haccepts, rfl⟩ := hblocks.accepts_of_witnessOfValues hw
    refine ⟨s.hiddenColumns z, ?_, ?_, ?_⟩
    · rw [← hblocks.numShown_eq]
      exact haccepts.length_shown
    · rw [← hblocks.numHidden_eq]
      exact haccepts.length_hidden
    · have hsolved := (haccepts.solved_iff_finite hblocks).mpr hz
      exact (haccepts.solved_iff_admits hblocks).mp hsolved

theorem admits_iff_accepted_selfQuotient :
    selfQuotient.compile .reject = .ok selfQuotientSystem ∧ selfQuotient.Admits [1] [7] := by
  have haccepted : selfQuotientSystem.witnessOfValues [1, 1, 7, 1] = .ok ⟨[1, 1, 7, 1], 1⟩ := by
    decide +kernel
  have hiff := (admits_iff_accepted selfQuotient_compile).1 _ _ haccepted
  refine ⟨selfQuotient_compile, hiff.mpr fun gate hgate => ?_⟩
  obtain rfl : gate = .quotient 3 (.column 2) (.column 2) := List.mem_singleton.mp hgate
  rintro ⟨hzero, -⟩
  rw [Combination.eval_column] at hzero
  exact absurd hzero (by decide +kernel)

/-- A system can accept an assignment although the circuit admits its shown inputs with no hidden
inputs at all: here zero divided by zero passes for five. -/
theorem selfQuotient_accepts_five :
    selfQuotient.compile .reject = .ok selfQuotientSystem ∧
      selfQuotientSystem.witnessOfValues [1, 5, 0, 5] = .ok ⟨[1, 5, 0, 5], 1⟩ ∧
      ∀ hidden, ¬ selfQuotient.Admits [5] hidden := by
  refine ⟨selfQuotient_compile, by decide +kernel, fun hidden hadmits => ?_⟩
  have hx : selfQuotient.environment [5] hidden "x" ≠ 0 := by
    intro hzero
    exact hadmits.denominators_ne_zero (.signal "x") List.mem_cons_self (congrArg some hzero)
  have hone : (Expression.div (.signal "x") (.signal "x")).value?
      (selfQuotient.environment [5] hidden) = some 1 := by
    rw [Expression.value?_div rfl rfl hx, mul_inv_cancel₀ hx]
  obtain ⟨v, hquotient, hshown⟩ := hadmits.relations_hold _ List.mem_cons_self
  have hfive : (5 : Scalar) = v := Option.some.inj hshown
  have hv : (1 : Scalar) = v := Option.some.inj (hone.symm.trans hquotient)
  exact absurd (hv.trans hfive.symm) (by decide +kernel)

end Circuit

end CircuitProof
