import Mathlib.Order.Bounds.Basic
import CircuitProof.Proofs.Bn254.Fields
import CircuitProof.Proofs.Circuit.Layout
import CircuitProof.Proofs.Circuit.Refusal
import CircuitProof.Proofs.System.Acceptance

/-!
# Signals that no row mentions

The column of a declared signal ends up in no row when nothing reads the signal or when it cancels
while combinations are folded. Every gate has a row of its own, so no gate reads such a column
either, and its value has no influence on anything but itself. Whether a circuit with such a signal
compiles is therefore a matter of policy, and the policy decides nothing else.
-/

namespace CircuitProof

variable {F : Type}

/-! ## Columns that are mentioned -/

/-- Some term gives the column a coefficient that is not zero. -/
def Row.Mentions [Zero F] (row : Row F) (column : Nat) : Prop :=
  ∃ term ∈ row, term.1 = column ∧ term.2 ≠ 0

instance [Zero F] [DecidableEq F] (row : Row F) (column : Nat) : Decidable (row.Mentions column) :=
  inferInstanceAs (Decidable (∃ term ∈ row, _))

/-- No coefficient of a canonical row is zero, so its columns are those that it mentions. -/
theorem Row.Canonical.mentions_iff [Zero F] {row : Row F} (h : row.Canonical) {column : Nat} :
    row.Mentions column ↔ column ∈ row.columns := by
  rw [columns, List.mem_map]
  constructor
  · rintro ⟨term, hterm, hcolumn, -⟩
    exact ⟨term, hterm, hcolumn⟩
  · rintro ⟨term, hterm, hcolumn⟩
    exact ⟨term, hterm, hcolumn, h.ne_zero term hterm⟩

def Constraint.Mentions [Zero F] (constraint : Constraint F) (column : Nat) : Prop :=
  constraint.a.terms.Mentions column ∨ constraint.b.terms.Mentions column ∨
    constraint.c.terms.Mentions column

theorem Constraint.Canonical.mentions_iff [Zero F] {constraint : Constraint F}
    (h : constraint.Canonical) {column : Nat} :
    constraint.Mentions column ↔ column ∈ constraint.columns := by
  obtain ⟨ha, hb, hc⟩ := h
  rw [Constraint.Mentions, Row.Canonical.mentions_iff ha, Row.Canonical.mentions_iff hb,
    Row.Canonical.mentions_iff hc, Constraint.columns, List.mem_append, List.mem_append, or_assoc]

namespace ConstraintSystem

/-- Some row of a matrix gives the column a coefficient that is not zero. -/
def Mentions [Zero F] (s : ConstraintSystem F) (column : Nat) : Prop :=
  ∃ m ∈ [s.a, s.b, s.c], ∃ row ∈ m.rows, row.Mentions column

instance [Zero F] [DecidableEq F] (s : ConstraintSystem F) (column : Nat) :
    Decidable (s.Mentions column) := inferInstanceAs (Decidable (∃ m ∈ [s.a, s.b, s.c], _))

def IsInput (s : ConstraintSystem F) (column : Nat) : Prop :=
  0 < column ∧ column < s.numStatement + s.numHidden

instance (s : ConstraintSystem F) (column : Nat) : Decidable (s.IsInput column) :=
  inferInstanceAs (Decidable (_ ∧ _))

/-- The column is that of a signal, and no row mentions it. -/
def Idle [Zero F] (s : ConstraintSystem F) (column : Nat) : Prop :=
  s.IsInput column ∧ ¬ s.Mentions column

instance [Zero F] [DecidableEq F] (s : ConstraintSystem F) (column : Nat) :
    Decidable (s.Idle column) := inferInstanceAs (Decidable (_ ∧ _))

end ConstraintSystem

def Witness.set (w : Witness F) (column : Nat) (value : F) : Witness F :=
  { w with values := w.values.set column value }

/-! ## Replacing a value that no row reads -/

variable [Field F]

/-- A value in a column that is not mentioned does not enter the inner product. -/
theorem Row.eval?_set {row : Row F} {column : Nat} (h : ¬ row.Mentions column) (z : List F)
    (value : F) : row.eval? (z.set column value) = row.eval? z := by
  induction row with
  | nil => rfl
  | cons term rest ih =>
    obtain ⟨other, coefficient⟩ := term
    have hrest : ¬ Row.Mentions rest column := fun ⟨t, ht, hmentions⟩ =>
      h ⟨t, List.mem_cons_of_mem _ ht, hmentions⟩
    rw [eval?, eval?, ih hrest]
    by_cases hcolumn : column = other
    · -- a zero coefficient may stand here, since the row need not be canonical
      obtain rfl : coefficient = 0 := by
        by_contra hne
        exact h ⟨(other, coefficient), List.mem_cons_self, hcolumn.symm, hne⟩
      subst hcolumn
      by_cases hlt : column < z.length
      · simp [hlt]
      · simp [Nat.le_of_not_lt hlt]
    · rw [List.getElem?_set_ne hcolumn]

theorem Matrix.mulVector?_set {m : Matrix F} {column : Nat}
    (h : ∀ row ∈ m.rows, ¬ row.Mentions column) (z : List F) (value : F) :
    m.mulVector? (z.set column value) = m.mulVector? z := by
  rw [mulVector?, mulVector?]
  generalize m.rows = rows at h
  induction rows with
  | nil => rfl
  | cons row rest ih =>
    rw [List.mapM_cons, List.mapM_cons, Row.eval?_set (h row List.mem_cons_self),
      ih fun other hother => h other (List.mem_cons_of_mem _ hother)]

variable [DecidableEq F]

/-- A gate whose row does not mention the column does not read it. -/
theorem Gate.value_set {ε : Type} (unsolvable : Nat → ε) {gate : Gate F} {column : Nat}
    (h : ¬ gate.constraint.Mentions column) (z : List F) (value : F) :
    gate.value unsolvable (z.set column value) = gate.value unsolvable z := by
  cases gate with
  | product target a b =>
    obtain ⟨ha, hb, -⟩ : ¬ a.terms.Mentions column ∧ ¬ b.terms.Mentions column ∧ _ := by
      simpa only [constraint, Constraint.Mentions, not_or] using h
    rw [Gate.value, Gate.value, Row.eval?_set ha, Row.eval?_set hb]
  | quotient target numerator denominator =>
    obtain ⟨-, hd, hn⟩ : _ ∧ ¬ denominator.terms.Mentions column ∧
        ¬ numerator.terms.Mentions column := by
      simpa only [constraint, Constraint.Mentions, not_or] using h
    rw [Gate.value, Gate.value, Row.eval?_set hd, Row.eval?_set hn]

namespace ConstraintSystem

variable {s : ConstraintSystem F} {column : Nat}

/-- No gate has the column as its target or among its operands. -/
theorem solve_set {gates : List (Gate F)} (h : ∀ gate ∈ gates, ¬ gate.constraint.Mentions column)
    {z : List F} (hlt : column < z.length) (value : F) :
    solve gates (z.set column value) = (solve gates z).map (·.set column value) := by
  induction gates generalizing z with
  | nil => rfl
  | cons gate rest ih =>
    have hrest : ∀ g ∈ rest, ¬ g.constraint.Mentions column := fun g hg =>
      h g (List.mem_cons_of_mem _ hg)
    have hvalue := Gate.value_set WitnessError.unresolvableAuxiliary (h gate List.mem_cons_self) z
      value
    cases hown : gate.value WitnessError.unresolvableAuxiliary z with
    | error e =>
      rw [hown] at hvalue
      simp only [solve, hown, hvalue, bind, Except.bind, Except.map]
    | ok own =>
      rw [hown] at hvalue
      have happend : z.set column value ++ [own] = (z ++ [own]).set column value :=
        (List.set_append_left column value hlt).symm
      rw [solve_cons hvalue, solve_cons hown, happend]
      exact ih hrest (by rw [List.length_append]; omega)

section
variable (h : ¬ s.Mentions column) (z : List F) (value : F)
include h

omit [DecidableEq F] in
theorem mulVector?_set (m : Matrix F) (hm : m ∈ [s.a, s.b, s.c]) :
    m.mulVector? (z.set column value) = m.mulVector? z :=
  Matrix.mulVector?_set (fun row hrow hmentions => h ⟨m, hm, row, hrow, hmentions⟩) z value

theorem rowHolds?_set (i : Nat) : s.rowHolds? (z.set column value) i = s.rowHolds? z i := by
  have hrow : ∀ m ∈ [s.a, s.b, s.c], ∀ row, m.rows[i]? = some row →
      row.eval? (z.set column value) = row.eval? z := fun m hm row hget =>
    Row.eval?_set (fun hmentions => h ⟨m, hm, row, List.mem_of_getElem? hget, hmentions⟩) z value
  rw [rowHolds?, rowHolds?]
  refine Option.bind_congr fun row hget => ?_
  rw [hrow s.a (by simp) row hget]
  refine Option.bind_congr fun a _ => Option.bind_congr fun row hget => ?_
  rw [hrow s.b (by simp) row hget]
  refine Option.bind_congr fun b _ => Option.bind_congr fun row hget => ?_
  rw [hrow s.c (by simp) row hget]

theorem firstUnsatisfied?_set : s.firstUnsatisfied? (z.set column value) = s.firstUnsatisfied? z := by
  have hfrom : ∀ count i,
      s.firstUnsatisfiedFrom? (z.set column value) i count = s.firstUnsatisfiedFrom? z i count := by
    intro count
    induction count with
    | zero => exact fun i => rfl
    | succ count ih =>
      intro i
      rw [firstUnsatisfiedFrom?, firstUnsatisfiedFrom?, rowHolds?_set h, ih]
  exact hfrom _ 0

/-- The check of the vector fails or succeeds as before. -/
theorem check_set : s.check (z.set column value) = (s.check z).map (·.set column value) := by
  rw [check, check, firstUnsatisfied?_set h]
  cases s.firstUnsatisfied? z with
  | none => rfl
  | some found =>
    cases found with
    | none => rfl
    | some row =>
      simp only [Failure.inRange_some, bind, Except.bind]
      cases s.relationOfRow[row]? <;> rfl

end

/-- Inputs that differ in a column that nothing reads are refused for the same cause, or have the
same witness except in that column. -/
theorem generateWitness_set (h : ¬ s.Mentions column)
    (hgates : ∀ gate ∈ s.gates, ¬ gate.constraint.Mentions column)
    (hinput : column < s.numStatement + s.numHidden) {value : F} {shown hidden shown' hidden' : List F}
    (hlength : shown'.length = shown.length)
    (hinputs : 1 :: (shown' ++ hidden') = (1 :: (shown ++ hidden)).set column value) :
    s.generateWitness shown' hidden' = (s.generateWitness shown hidden).map (·.set column value) := by
  have hlength' : hidden'.length = hidden.length := by
    have htotal := congrArg List.length hinputs
    simp only [List.length_set, List.length_cons, List.length_append] at htotal
    omega
  rw [generateWitness, generateWitness, hlength, hlength']
  split
  · rfl
  · next hshown =>
    split
    · rfl
    · next hhidden =>
      have hlt : column < (1 :: (shown ++ hidden)).length := by
        simp only [numStatement, List.length_cons, List.length_append] at hinput ⊢
        omega
      rw [hinputs, solve_set hgates hlt]
      cases hsolve : solve s.gates (1 :: (shown ++ hidden)) with
      | error e => rfl
      | ok z =>
        obtain ⟨aux, rfl, -⟩ := exists_append_of_solve hsolve
        have hpad : ∀ k, (1 :: (shown ++ hidden) ++ aux).set column value ++ List.replicate k 0 =
            (1 :: (shown ++ hidden) ++ aux ++ List.replicate k 0).set column value := fun k =>
          (List.set_append_left column value (by rw [List.length_append]; omega)).symm
        simp only [Except.map, bind, Except.bind, List.length_set, hpad]
        exact check_set h _ value

/-- The value in the column decides nothing. -/
structure Irrelevant (s : ConstraintSystem F) (column : Nat) : Prop where
  firstUnsatisfied? : ∀ z value, s.firstUnsatisfied? (z.set column value) = s.firstUnsatisfied? z
  products : ∀ m ∈ [s.a, s.b, s.c], ∀ z value, m.mulVector? (z.set column value) = m.mulVector? z
  /-- Inputs that differ in the column only are refused for the same cause, or have the same witness
  except in that column. -/
  generateWitness : ∀ value shown hidden shown' hidden', shown'.length = shown.length →
    1 :: (shown' ++ hidden') = (1 :: (shown ++ hidden)).set column value →
      s.generateWitness shown' hidden' =
        (s.generateWitness shown hidden).map (·.set column value)

end ConstraintSystem

/-! ## The policy -/

section
variable {constraints : List (Constraint F)} {numInputs : Nat}

omit [Field F] [DecidableEq F] in
theorem firstUnmentioned?_eq_none_iff : firstUnmentioned? constraints numInputs = none ↔
    ∀ column, 0 < column → column < numInputs → column ∈ constraints.flatMap Constraint.columns := by
  simp only [firstUnmentioned?, List.find?_range'_eq_none, decide_not, Bool.not_not, decide_eq_true_eq]
  constructor
  · intro h column hpos hlt
    exact h column (by omega) (by omega)
  · intro h column hle hlt
    exact h column (by omega) (by omega)

omit [Field F] [DecidableEq F] in
/-- The search goes through the columns in order and skips the unit. -/
theorem firstUnmentioned?_eq_some {column : Nat}
    (h : firstUnmentioned? constraints numInputs = some column) :
    IsLeast {column | (0 < column ∧ column < numInputs) ∧
      column ∉ constraints.flatMap Constraint.columns} column := by
  simp only [firstUnmentioned?, List.find?_range'_eq_some, List.mem_range'_1, decide_not,
    Bool.not_not, Bool.not_eq_true', decide_eq_true_eq, decide_eq_false_iff_not] at h
  obtain ⟨hunmentioned, ⟨hle, hlt⟩, hbefore⟩ := h
  refine ⟨⟨⟨hle, by omega⟩, hunmentioned⟩, fun other hother => ?_⟩
  obtain ⟨⟨hpos, -⟩, hunmentioned'⟩ := hother
  by_contra hless
  exact hunmentioned' (hbefore other hpos (Nat.lt_of_not_le hless))

end

namespace Circuit

variable {c : Circuit F} {s : ConstraintSystem F} {blocks : List (Block F)} {column : Nat}

namespace Compiled

theorem mentions_iff (h : c.Compiled s blocks) : s.Mentions column ↔
    ∃ constraint ∈ blocks.flatMap Block.constraints, constraint.Mentions column := by
  have hside : ∀ side : Constraint F → Row F,
      (∃ row ∈ (blocks.flatMap Block.constraints).map side, row.Mentions column) ↔
        ∃ constraint ∈ blocks.flatMap Block.constraints, (side constraint).Mentions column :=
    fun side => by simp only [List.mem_map, exists_exists_and_eq_and]
  simp only [ConstraintSystem.Mentions, h.system_eq, systemOf, List.mem_cons, List.not_mem_nil,
    or_false, exists_eq_or_imp, exists_eq_left, hside, Constraint.Mentions, and_or_left, exists_or]

/-- The columns that some row mentions are those of the constraints. -/
theorem mentions_iff_mem (h : c.Compiled s blocks) : s.Mentions column ↔
    column ∈ (blocks.flatMap Block.constraints).flatMap Constraint.columns := by
  rw [h.mentions_iff, List.mem_flatMap]
  refine exists_congr fun constraint => and_congr_right fun hmem => ?_
  exact (lowerRelations_canonical h.lowered constraint hmem).mentions_iff

theorem idle_iff (h : c.Compiled s blocks) : s.Idle column ↔
    (0 < column ∧ column < 1 + c.inputNames.length) ∧
      column ∉ (blocks.flatMap Block.constraints).flatMap Constraint.columns := by
  rw [ConstraintSystem.Idle, ConstraintSystem.IsInput, h.numStatement_add_numHidden,
    h.mentions_iff_mem]

/-- Each gate has a row, so no gate reads a column that no row mentions. -/
theorem gate_not_mentions (h : c.Compiled s blocks) (hcolumn : ¬ s.Mentions column) :
    ∀ gate ∈ s.gates, ¬ gate.constraint.Mentions column := by
  intro gate hgate hmentions
  rw [h.gates_eq] at hgate
  obtain ⟨block, hblock, hgate⟩ := List.mem_flatMap.mp hgate
  refine hcolumn (h.mentions_iff.mpr ⟨gate.constraint, ?_, hmentions⟩)
  exact List.mem_flatMap.mpr ⟨block, hblock, Block.mem_constraints.mpr (.inl ⟨gate, hgate, rfl⟩)⟩

/-- An unmentioned column is read by no row and by no gate. -/
theorem irrelevant (h : c.Compiled s blocks) (hidle : s.Idle column) : s.Irrelevant column where
  firstUnsatisfied? z value := ConstraintSystem.firstUnsatisfied?_set hidle.2 z value
  products m hm z value := ConstraintSystem.mulVector?_set hidle.2 z value m hm
  generateWitness _ _ _ _ _ hlength hinputs :=
    ConstraintSystem.generateWitness_set hidle.2 (h.gate_not_mentions hidle.2) hidle.1.2 hlength
      hinputs

/-- What the two policies make of the same blocks. -/
theorem compile_eq (h : c.Compiled s blocks) (hnodup : c.inputNames.Nodup) :
    c.compile .ignore = .ok s ∧ c.compile .reject =
      match firstUnmentioned? (blocks.flatMap Block.constraints) (1 + c.inputNames.length) with
      | some column => .error (.unconstrainedSignal (s.names[column]?.getD ""))
      | none => .ok s := by
  have hrepeated : firstRepeated? c.inputNames = none := firstRepeated?_eq_none_iff.mpr hnodup
  simp only [compile, hrepeated, h.lowered, ← h.system_eq, true_and]
  cases firstUnmentioned? (blocks.flatMap Block.constraints) (1 + c.inputNames.length) <;> rfl

theorem exists_name (h : c.Compiled s blocks) (hinput : s.IsInput column) :
    ∃ name, s.names[column]? = some name := by
  obtain ⟨-, hlt⟩ := hinput
  rw [h.numStatement_add_numHidden] at hlt
  have hlength : column < s.names.length := by
    rw [h.names_eq, List.length_cons, List.length_append]
    omega
  exact ⟨_, List.getElem?_eq_getElem hlength⟩

theorem compile_reject_of_idle (h : c.Compiled s blocks) (hnodup : c.inputNames.Nodup)
    (hidle : s.Idle column) : ∃ first name, IsLeast {column | s.Idle column} first ∧
      s.names[first]? = some name ∧ c.compile .reject = .error (.unconstrainedSignal name) := by
  cases hfirst : firstUnmentioned? (blocks.flatMap Block.constraints) (1 + c.inputNames.length) with
  | none =>
    obtain ⟨⟨hpos, hlt⟩, hunmentioned⟩ := h.idle_iff.mp hidle
    exact absurd (firstUnmentioned?_eq_none_iff.mp hfirst column hpos hlt) hunmentioned
  | some first =>
    have hleast : IsLeast {column | s.Idle column} first := by
      simp only [h.idle_iff]
      exact firstUnmentioned?_eq_some hfirst
    obtain ⟨name, hname⟩ := h.exists_name hleast.1.1
    refine ⟨first, name, hleast, hname, ?_⟩
    simp only [(h.compile_eq hnodup).2, hfirst, hname, Option.getD_some]

theorem compile_reject_of_mentions (h : c.Compiled s blocks) (hnodup : c.inputNames.Nodup)
    (hall : ∀ column, s.IsInput column → s.Mentions column) : c.compile .reject = .ok s := by
  have hnone : firstUnmentioned? (blocks.flatMap Block.constraints) (1 + c.inputNames.length) =
      none := by
    refine firstUnmentioned?_eq_none_iff.mpr fun column hpos hlt => h.mentions_iff_mem.mp ?_
    exact hall column ⟨hpos, by rwa [h.numStatement_add_numHidden]⟩
  rw [(h.compile_eq hnodup).2, hnone]

end Compiled

/-- A circuit that compiles declares no name twice. -/
theorem nodup_of_compile {policy : UnconstrainedPolicy} (h : c.compile policy = .ok s) :
    c.inputNames.Nodup := by
  by_contra hrepeated
  obtain ⟨name, hname⟩ := exists_firstRepeated_iff.mpr (mt nodup_inputNames_iff.mpr hrepeated)
  rw [compile_eq_duplicateSignal_iff.mpr hname] at h
  cases h

/-- The two policies differ only in the check for unmentioned inputs. -/
theorem compile_reject_eq_ok_iff : c.compile .reject = .ok s ↔
    c.compile .ignore = .ok s ∧ ∀ column, s.IsInput column → s.Mentions column := by
  constructor
  · intro hreject
    obtain ⟨blocks, h⟩ := compiled_of_compile hreject
    have hnodup := nodup_of_compile hreject
    refine ⟨(h.compile_eq hnodup).1, fun column hinput => ?_⟩
    by_contra hunmentioned
    obtain ⟨-, name, -, -, herror⟩ := h.compile_reject_of_idle hnodup ⟨hinput, hunmentioned⟩
    rw [hreject] at herror
    cases herror
  · rintro ⟨hignore, hall⟩
    obtain ⟨blocks, h⟩ := compiled_of_compile hignore
    exact h.compile_reject_of_mentions (nodup_of_compile hignore) hall

/-- The policy is exact. It refuses a circuit that would compile without it exactly if some signal
stands in no row, and names the first such signal. The value of such a signal decides nothing: no
row, no product of a matrix and no generated value depends on it. -/
theorem compile_unconstrained (c : Circuit F) :
    (∀ s, c.compile .reject = .ok s ↔
      c.compile .ignore = .ok s ∧ ∀ column, s.IsInput column → s.Mentions column) ∧
    ∀ s, c.compile .ignore = .ok s → ∀ column, s.Idle column →
      (∃ first name, IsLeast {column | s.Idle column} first ∧ s.names[first]? = some name ∧
        c.compile .reject = .error (.unconstrainedSignal name)) ∧
      s.Irrelevant column := by
  refine ⟨fun s => compile_reject_eq_ok_iff, fun s hignore column hidle => ?_⟩
  obtain ⟨blocks, h⟩ := compiled_of_compile hignore
  exact ⟨h.compile_reject_of_idle (nodup_of_compile hignore) hidle, h.irrelevant hidle⟩

def cancelledSum : Circuit Scalar where
  name := "cancelled-sum"
  declarations := [⟨"A", .shown⟩, ⟨"B", .hidden⟩, ⟨"Sum", .shown⟩]
  relations := [.equal (.add (.signal "A") (.sub (.signal "B") (.signal "B"))) (.signal "Sum")]

theorem compile_unconstrained_cancelledSum :
    cancelledSum.compile .reject = .error (.unconstrainedSignal "B") ∧
      ∃ s, cancelledSum.compile .ignore = .ok s ∧ s.Idle 3 ∧ s.Irrelevant 3 := by
  obtain ⟨s, hs, hidle⟩ : ∃ s, cancelledSum.compile .ignore = .ok s ∧ s.Idle 3 :=
    ⟨_, rfl, by decide +kernel⟩
  obtain ⟨-, hirrelevant⟩ := (compile_unconstrained cancelledSum).2 s hs 3 hidle
  exact ⟨by decide +kernel, s, hs, hidle, hirrelevant⟩

end Circuit

end CircuitProof
