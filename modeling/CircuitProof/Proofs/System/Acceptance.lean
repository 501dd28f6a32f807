import CircuitProof.Proofs.Circuit.Compile

/-!
# The witnesses that a system accepts

However a witness was obtained, it assigns every column of its system and satisfies every row.
-/

namespace CircuitProof

namespace ConstraintSystem

variable {F : Type} [Field F] [DecidableEq F]

/-- The systems that there are: compiled from a circuit, or made of given matrices. -/
inductive Built : ConstraintSystem F → Prop where
  | compiled {c : Circuit F} {policy : UnconstrainedPolicy} {s : ConstraintSystem F}
      (h : c.compile policy = .ok s) : Built s
  | ofMatrices (a b c : Matrix F) (numShown numHidden : Nat) :
      Built (ConstraintSystem.ofMatrices a b c numShown numHidden)

/-- The witnesses of a system: generated from inputs, or supplied whole. -/
inductive Accepted (s : ConstraintSystem F) : Witness F → Prop where
  | generated {shown hidden : List F} {w : Witness F} (h : s.generateWitness shown hidden = .ok w) :
      Accepted s w
  | supplied {z : List F} {w : Witness F} (h : s.witnessOfValues z = .ok w) : Accepted s w

/-- A witness that assigns the columns of the system and satisfies its rows. -/
structure Satisfies (s : ConstraintSystem F) (w : Witness F) : Prop where
  length_values : w.values.length = s.numColumns
  unit : w.values.head? = some 1
  numShown_eq : w.numShown = s.numShown
  rows : ∀ row < s.numConstraints, s.rowHolds? w.values row = some true

variable {s : ConstraintSystem F}

/-- There is a column for every gate. -/
theorem Built.length_gates_le (h : s.Built) : s.gates.length ≤ s.numAuxiliary := by
  cases h with
  | compiled hcompile =>
    obtain ⟨blocks, hblocks⟩ := Circuit.compiled_of_compile hcompile
    rw [hblocks.system_eq]
    exact Nat.le_refl _
  | ofMatrices a b c numShown numHidden => exact Nat.zero_le _

/-- Evaluating gates puts one value for each behind the vector. -/
theorem exists_append_of_solve {gates : List (Gate F)} {z z' : List F}
    (h : solve gates z = .ok z') : ∃ aux, z' = z ++ aux ∧ aux.length = gates.length := by
  induction gates generalizing z with
  | nil => exact ⟨[], by simpa [solve] using h.symm, rfl⟩
  | cons gate rest ih =>
    cases hvalue : gate.value WitnessError.unresolvableAuxiliary z with
    | error e => simp [solve, hvalue, bind, Except.bind] at h
    | ok value =>
      rw [solve_cons hvalue] at h
      obtain ⟨aux, rfl, hlength⟩ := ih h
      exact ⟨value :: aux, by simp, by simp [hlength]⟩

/-- A checked vector satisfies every row. -/
theorem rowHolds?_of_check {z : List F} {w : Witness F} (h : s.check z = .ok w) :
    w = ⟨z, s.numShown⟩ ∧ ∀ row < s.numConstraints, s.rowHolds? z row = some true := by
  rw [check] at h
  cases hrows : s.firstUnsatisfied? z with
  | none =>
    rw [hrows] at h
    cases h
  | some found =>
    rw [hrows] at h
    cases found with
    | none =>
      refine ⟨(Except.ok.inj h).symm, fun row hrow => ?_⟩
      exact (s.firstUnsatisfiedFrom?_eq_none_iff z 0 _).mp hrows row (Nat.zero_le row) (by omega)
    | some row =>
      cases hrelation : s.relationOfRow[row]? with
      | none =>
        simp only [Failure.inRange_some, bind, Except.bind, hrelation] at h
        cases h
      | some relation =>
        simp only [Failure.inRange_some, bind, Except.bind, hrelation] at h
        cases h

/-- Acceptance means that every row holds, in the columns that the system has. -/
theorem satisfies_of_check {z : List F} {w : Witness F} (hlength : z.length = s.numColumns)
    (hunit : z.head? = some 1) (h : s.check z = .ok w) : s.Satisfies w := by
  obtain ⟨rfl, hrows⟩ := rowHolds?_of_check h
  exact ⟨hlength, hunit, rfl, hrows⟩

theorem satisfies_of_witnessOfValues {z : List F} {w : Witness F}
    (h : s.witnessOfValues z = .ok w) : s.Satisfies w := by
  rw [witnessOfValues] at h
  split at h
  · cases h
  · next hlength =>
    split at h
    · cases h
    · next hunit => exact satisfies_of_check (not_not.mp hlength) (not_not.mp hunit) h

/-- Generated witnesses are checked like those supplied whole. -/
theorem satisfies_of_generateWitness (hs : s.Built) {shown hidden : List F} {w : Witness F}
    (h : s.generateWitness shown hidden = .ok w) : s.Satisfies w := by
  rw [generateWitness] at h
  split at h
  · cases h
  · next hshown =>
    split at h
    · cases h
    · next hhidden =>
      cases hsolve : solve s.gates (1 :: (shown ++ hidden)) with
      | error e =>
        rw [hsolve] at h
        cases h
      | ok z =>
        rw [hsolve] at h
        obtain ⟨aux, rfl, haux⟩ := exists_append_of_solve hsolve
        refine satisfies_of_check ?_ rfl h
        have hle := hs.length_gates_le
        simp only [List.length_append, List.length_cons, List.length_replicate, numColumns]
        omega

/-- An accepted witness assigns every column and satisfies every row. -/
theorem satisfies_of_accepted (hs : s.Built) {w : Witness F} (h : s.Accepted w) :
    s.Satisfies w := by
  cases h with
  | generated hw => exact satisfies_of_generateWitness hs hw
  | supplied hw => exact satisfies_of_witnessOfValues hw

namespace Satisfies

variable {w : Witness F}

/-- The statement's columns hold the constant one and the shown inputs. -/
theorem take_values (h : s.Satisfies w) : w.values.take s.numStatement = 1 :: w.shown := by
  obtain ⟨rest, hvalues⟩ := List.head?_eq_some_iff.mp h.unit
  rw [numStatement, Nat.add_comm, hvalues, List.take_succ_cons, Witness.shown, hvalues,
    h.numShown_eq]
  rfl

theorem length_shown (h : s.Satisfies w) : w.shown.length = s.numShown := by
  have hlength := h.length_values
  rw [numColumns] at hlength
  rw [Witness.shown, h.numShown_eq, List.length_take, List.length_drop]
  omega

end Satisfies

end ConstraintSystem

end CircuitProof
