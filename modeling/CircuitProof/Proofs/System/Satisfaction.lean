import CircuitProof.Proofs.Linear.Evaluation
import CircuitProof.System.Witness

/-!
# Satisfied constraints and solved gates

A gate is solved where its constraint holds and it does not divide by zero. Gates placed on
consecutive columns are solved by at most one continuation of an assignment; evaluating them in
order finds it or names the first column whose denominator is zero. A system accepts a vector when
every one of its rows holds, and otherwise names the first row that does not.
-/

namespace CircuitProof

variable {F : Type}

section
variable [Field F]

/-- Whether the values of an assignment meet the constraint. -/
def Constraint.Holds (constraint : Constraint F) (z : Nat → F) : Prop :=
  constraint.a.eval z * constraint.b.eval z = constraint.c.eval z

instance [DecidableEq F] (constraint : Constraint F) (z : Nat → F) :
    Decidable (constraint.Holds z) := inferInstanceAs (Decidable (_ = _))

end

/-- Every column of the constraint lies below the bound. -/
def Constraint.Below (constraint : Constraint F) (bound : Nat) : Prop :=
  constraint.a.Below bound ∧ constraint.b.Below bound ∧ constraint.c.Below bound

theorem Constraint.Below.mono {constraint : Constraint F} {bound larger : Nat}
    (h : constraint.Below bound) (hle : bound ≤ larger) : constraint.Below larger :=
  ⟨h.1.mono hle, h.2.1.mono hle, h.2.2.mono hle⟩

namespace Gate

/-- Every column that the gate reads lies below the bound. -/
def Reads (bound : Nat) : Gate F → Prop
  | product _ a b => a.Below bound ∧ b.Below bound
  | quotient _ numerator denominator => numerator.Below bound ∧ denominator.Below bound

section
variable [Field F]

def DividesByZero (z : Nat → F) : Gate F → Prop
  | product _ _ _ => False
  | quotient _ _ denominator => denominator.eval z = 0

/-- The gate is a quotient of zero by zero. -/
def Indeterminate (z : Nat → F) : Gate F → Prop
  | product _ _ _ => False
  | quotient _ numerator denominator => numerator.eval z = 0 ∧ denominator.eval z = 0

/-- The gate has a value and its column holds it. -/
def Solved (z : Nat → F) (gate : Gate F) : Prop :=
  ¬ gate.DividesByZero z ∧ gate.constraint.Holds z

theorem Indeterminate.dividesByZero {gate : Gate F} {z : Nat → F} (h : gate.Indeterminate z) :
    gate.DividesByZero z := by
  cases gate with
  | product => exact h
  | quotient => exact h.2

/-- Where its row holds, a gate can only divide zero by zero. -/
theorem indeterminate_of_holds {gate : Gate F} {z : Nat → F} (hrow : gate.constraint.Holds z)
    (hzero : gate.DividesByZero z) : gate.Indeterminate z := by
  cases gate with
  | product => exact hzero
  | quotient target numerator denominator =>
    have hden : denominator.eval z = 0 := hzero
    have hnum : (Combination.column target).eval z * denominator.eval z = numerator.eval z := hrow
    exact ⟨by rw [← hnum, hden, mul_zero], hden⟩

theorem dividesByZero_congr {gate : Gate F} {bound : Nat} (hreads : gate.Reads bound)
    {z z' : Nat → F} (h : ∀ column < bound, z column = z' column) :
    gate.DividesByZero z ↔ gate.DividesByZero z' := by
  cases gate with
  | product => exact Iff.rfl
  | quotient target numerator denominator =>
    simp only [DividesByZero, Combination.eval_congr hreads.2 h]

/-- The columns that a gate reads determine the value of its own. -/
theorem eq_of_solved {gate : Gate F} {bound : Nat} (hreads : gate.Reads bound) {z z' : Nat → F}
    (h : ∀ column < bound, z column = z' column) (hz : gate.Solved z) (hz' : gate.Solved z') :
    z gate.target = z' gate.target := by
  cases gate with
  | product target a b =>
    have hleft : a.eval z * b.eval z = (Combination.column target).eval z := hz.2
    have hright : a.eval z' * b.eval z' = (Combination.column target).eval z' := hz'.2
    rw [Combination.eval_column] at hleft hright
    rw [Gate.target, ← hleft, ← hright, Combination.eval_congr hreads.1 h,
      Combination.eval_congr hreads.2 h]
  | quotient target numerator denominator =>
    have hleft : (Combination.column target).eval z * denominator.eval z = numerator.eval z := hz.2
    have hright : (Combination.column target).eval z' * denominator.eval z' = numerator.eval z' :=
      hz'.2
    have hden : denominator.eval z' ≠ 0 := hz'.1
    rw [Combination.eval_column] at hleft hright
    rw [Combination.eval_congr hreads.1 h, Combination.eval_congr hreads.2 h, ← hright] at hleft
    exact mul_right_cancel₀ hden hleft

variable [DecidableEq F]

/-- The refusal names the column that the gate was to fill. -/
theorem value_of_dividesByZero {ε : Type} (unsolvable : Nat → ε) {gate : Gate F} {z : List F}
    (hreads : gate.Reads z.length) (hzero : gate.DividesByZero (valueAt z)) :
    gate.value unsolvable z = Failure.reject (unsolvable gate.target) := by
  cases gate with
  | product => exact hzero.elim
  | quotient target numerator denominator =>
    have hden : denominator.eval (valueAt z) = 0 := hzero
    simp only [value, Combination.eval?_of_below hreads.2, hden, Failure.inRange_some, inverse?,
      bind, Except.bind, ↓reduceIte]
    rfl

/-- A gate that does not divide by zero has a value, and giving it to the gate's column solves the
gate. -/
theorem exists_value {ε : Type} (unsolvable : Nat → ε) {gate : Gate F} {z : List F}
    (htarget : gate.target = z.length) (hreads : gate.Reads z.length)
    (hzero : ¬ gate.DividesByZero (valueAt z)) :
    ∃ value, gate.value unsolvable z = .ok value ∧
      ∀ more, gate.Solved (valueAt (z ++ value :: more)) := by
  have hagree : ∀ value more, ∀ column < z.length,
      valueAt z column = valueAt (z ++ value :: more) column :=
    fun value more column h => (valueAt_append_left z _ h).symm
  cases gate with
  | product target a b =>
    refine ⟨a.eval (valueAt z) * b.eval (valueAt z), ?_, fun more => ⟨id, ?_⟩⟩
    · simp [value, Combination.eval?_of_below hreads.1, Combination.eval?_of_below hreads.2, bind,
        Except.bind]
    · have hcolumn : target = z.length := htarget
      simp only [constraint, Constraint.Holds, Combination.eval_column, hcolumn,
        valueAt_append_length, ← Combination.eval_congr hreads.1 (hagree _ more),
        ← Combination.eval_congr hreads.2 (hagree _ more)]
  | quotient target numerator denominator =>
    have hden : denominator.eval (valueAt z) ≠ 0 := hzero
    refine ⟨numerator.eval (valueAt z) * (denominator.eval (valueAt z))⁻¹, ?_, fun more => ⟨?_, ?_⟩⟩
    · simp [value, Combination.eval?_of_below hreads.1, Combination.eval?_of_below hreads.2,
        inverse?, hden, bind, Except.bind]
    · rwa [← dividesByZero_congr hreads (hagree _ more)]
    · have hcolumn : target = z.length := htarget
      simp only [constraint, Constraint.Holds, Combination.eval_column, hcolumn,
        valueAt_append_length, ← Combination.eval_congr hreads.1 (hagree _ more),
        ← Combination.eval_congr hreads.2 (hagree _ more)]
      rw [mul_assoc, inv_mul_cancel₀ hden, mul_one]

end

/-- Gates on the consecutive columns from `next` on, each reading only columns before its own. -/
def Placed : Nat → List (Gate F) → Prop
  | _, [] => True
  | next, gate :: rest => gate.target = next ∧ gate.Reads next ∧ Placed (next + 1) rest

/-- Gates in place may be cut into those in front and those behind. -/
theorem placed_append {next : Nat} {gates more : List (Gate F)} :
    Placed next (gates ++ more) ↔ Placed next gates ∧ Placed (next + gates.length) more := by
  induction gates generalizing next with
  | nil => simp [Placed]
  | cons gate rest ih =>
    simp only [List.cons_append, Placed, ih, List.length_cons, and_assoc]
    rw [show next + (rest.length + 1) = next + 1 + rest.length by omega]

/-- Gates stand on consecutive columns, and each reads only columns before its own. -/
theorem Placed.of_getElem? {next i : Nat} {gates : List (Gate F)} {gate : Gate F}
    (h : Placed next gates) (hget : gates[i]? = some gate) :
    gate.target = next + i ∧ gate.Reads gate.target := by
  induction gates generalizing next i with
  | nil => simp at hget
  | cons first rest ih =>
    obtain ⟨htarget, hreads, hrest⟩ := h
    cases i with
    | zero =>
      obtain rfl : first = gate := by simpa using hget
      exact ⟨htarget, by rwa [htarget]⟩
    | succ i =>
      obtain ⟨hgate, hreads⟩ := ih hrest (by simpa using hget)
      exact ⟨by omega, hreads⟩

theorem Placed.target_of_getElem? {next i : Nat} {gates : List (Gate F)} {gate : Gate F}
    (h : Placed next gates) (hget : gates[i]? = some gate) : gate.target = next + i :=
  (h.of_getElem? hget).1

variable [Field F]

/-- The constraints of placed gates mention no column after the last gate's. -/
theorem Placed.constraint_below {next : Nat} {gates : List (Gate F)} (h : Placed next gates)
    {gate : Gate F} (hgate : gate ∈ gates) : gate.constraint.Below (next + gates.length) := by
  induction gates generalizing next with
  | nil => cases hgate
  | cons first rest ih =>
    obtain ⟨htarget, hreads, hrest⟩ := h
    rw [List.length_cons, show next + (rest.length + 1) = next + 1 + rest.length by omega]
    rcases List.mem_cons.mp hgate with rfl | hgate
    · have htarget_lt : gate.target < next + 1 + rest.length := by omega
      have hle : next ≤ next + 1 + rest.length := by omega
      cases gate with
      | product target a b =>
        exact ⟨hreads.1.mono hle, hreads.2.mono hle, Combination.below_column htarget_lt⟩
      | quotient target numerator denominator =>
        exact ⟨Combination.below_column htarget_lt, hreads.2.mono hle, hreads.1.mono hle⟩
    · exact ih hrest hgate

/-- Two assignments that agree before the gates agree on the gates' columns too, as soon as one of
them solves the gates and the other meets their constraints: no denominator can be zero only for
the other one. -/
theorem Placed.agree_of_solved {next : Nat} {gates : List (Gate F)} (h : Placed next gates)
    {z z' : Nat → F} (hbefore : ∀ column < next, z column = z' column)
    (hz : ∀ gate ∈ gates, gate.Solved z) (hz' : ∀ gate ∈ gates, gate.constraint.Holds z') :
    ∀ column < next + gates.length, z column = z' column := by
  induction gates generalizing next with
  | nil => simpa using hbefore
  | cons gate rest ih =>
    obtain ⟨htarget, hreads, hrest⟩ := h
    have hsolved : gate.Solved z := hz gate List.mem_cons_self
    have hsolved' : gate.Solved z' :=
      ⟨fun hzero => hsolved.1 ((dividesByZero_congr hreads hbefore).mpr hzero),
        hz' gate List.mem_cons_self⟩
    have hown : z next = z' next := htarget ▸ eq_of_solved hreads hbefore hsolved hsolved'
    have hnext : ∀ column < next + 1, z column = z' column := by
      intro column hcolumn
      rcases Nat.lt_succ_iff_lt_or_eq.mp hcolumn with hlt | rfl
      · exact hbefore column hlt
      · exact hown
    have hfinal := ih hrest hnext (fun g hg => hz g (List.mem_cons_of_mem _ hg))
      (fun g hg => hz' g (List.mem_cons_of_mem _ hg))
    intro column hcolumn
    exact hfinal column (by simp only [List.length_cons] at hcolumn; omega)

end Gate

namespace ConstraintSystem

section
variable [Field F] [DecidableEq F]

open Gate (Placed)

theorem solve_cons {gate : Gate F} {z : List F} {value : F}
    (hvalue : gate.value WitnessError.unresolvableAuxiliary z = .ok value) (rest : List (Gate F)) :
    solve (gate :: rest) z = solve rest (z ++ [value]) := by
  simp [solve, hvalue, bind, Except.bind]

/-- Evaluating placed gates either solves them all, or stops at the first one that divides by zero
and names its column. -/
theorem solve_cases {gates : List (Gate F)} {z : List F} (h : Placed z.length gates) :
    (∃ aux, solve gates z = .ok (z ++ aux) ∧ aux.length = gates.length ∧
      ∀ gate ∈ gates, gate.Solved (valueAt (z ++ aux))) ∨
    ∃ before gate after aux, gates = before ++ gate :: after ∧ aux.length = before.length ∧
      (∀ g ∈ before, g.Solved (valueAt (z ++ aux))) ∧ gate.DividesByZero (valueAt (z ++ aux)) ∧
      solve gates z = Failure.reject (.unresolvableAuxiliary (z.length + before.length)) := by
  induction gates generalizing z with
  | nil => exact .inl ⟨[], by simp [solve], rfl, by simp⟩
  | cons gate rest ih =>
    obtain ⟨htarget, hreads, hrest⟩ := h
    by_cases hzero : gate.DividesByZero (valueAt z)
    · refine .inr ⟨[], gate, rest, [], rfl, rfl, by simp, by simpa using hzero, ?_⟩
      simp [solve, Gate.value_of_dividesByZero _ hreads hzero, htarget, Failure.reject, bind,
        Except.bind]
    · obtain ⟨value, hvalue, hsolved⟩ :=
        Gate.exists_value WitnessError.unresolvableAuxiliary htarget hreads hzero
      have happend : ∀ aux, z ++ [value] ++ aux = z ++ value :: aux := by simp
      rw [solve_cons hvalue]
      rcases ih (z := z ++ [value]) (by simpa using hrest) with
        ⟨aux, hok, hlength, hall⟩ | ⟨before, stop, after, aux, hsplit, hlength, hall, hstop, herror⟩
      · rw [happend] at hok hall
        refine .inl ⟨value :: aux, hok, by simp [hlength], ?_⟩
        intro g hg
        rcases List.mem_cons.mp hg with rfl | hg
        · exact hsolved aux
        · exact hall g hg
      · rw [happend] at hall hstop
        refine .inr ⟨gate :: before, stop, after, value :: aux, by simp [hsplit], by simp [hlength],
          ?_, hstop, ?_⟩
        · intro g hg
          rcases List.mem_cons.mp hg with rfl | hg
          · exact hsolved aux
          · exact hall g hg
        · rw [herror]
          simp only [List.length_append, List.length_cons, List.length_nil]
          rw [show z.length + (0 + 1) + before.length = z.length + (before.length + 1) by omega]

/-- An assignment that solves the gates is the one that evaluating them yields. -/
theorem solve_of_solved {gates : List (Gate F)} {z aux : List F} (h : Placed z.length gates)
    (hlength : aux.length = gates.length)
    (hsolved : ∀ gate ∈ gates, gate.Solved (valueAt (z ++ aux))) :
    solve gates z = .ok (z ++ aux) := by
  induction gates generalizing z aux with
  | nil =>
    obtain rfl : aux = [] := List.eq_nil_of_length_eq_zero hlength
    simp [solve]
  | cons gate rest ih =>
    obtain ⟨own, aux, rfl⟩ : ∃ own more, aux = own :: more :=
      List.exists_cons_of_length_pos (by simp [hlength])
    obtain ⟨htarget, hreads, hrest⟩ := h
    have hgate : gate.Solved (valueAt (z ++ own :: aux)) := hsolved gate List.mem_cons_self
    have hagree : ∀ column < z.length, valueAt z column = valueAt (z ++ own :: aux) column :=
      fun column hcolumn => (valueAt_append_left z _ hcolumn).symm
    have hzero : ¬ gate.DividesByZero (valueAt z) := by
      rw [Gate.dividesByZero_congr hreads hagree]
      exact hgate.1
    obtain ⟨value, hvalue, hcomputed⟩ :=
      Gate.exists_value WitnessError.unresolvableAuxiliary htarget hreads hzero
    have hagree' : ∀ column < z.length,
        valueAt (z ++ value :: aux) column = valueAt (z ++ own :: aux) column := by
      intro column hcolumn
      rw [valueAt_append_left z _ hcolumn, valueAt_append_left z _ hcolumn]
    have hown : value = own := by
      have heq := Gate.eq_of_solved hreads hagree' (hcomputed aux) hgate
      simpa [htarget] using heq
    subst hown
    rw [solve_cons hvalue, ih (by simpa using hrest) (by simpa using hlength)
      (by simpa using fun g hg => hsolved g (List.mem_cons_of_mem _ hg))]
    simp

end

section
variable [Zero F] [Add F] [Mul F] [DecidableEq F] (s : ConstraintSystem F)

variable {s} in
theorem firstUnsatisfiedFrom?_of_true {z : List F} {i : Nat} (h : s.rowHolds? z i = some true)
    (count : Nat) :
    s.firstUnsatisfiedFrom? z i (count + 1) = s.firstUnsatisfiedFrom? z (i + 1) count := by
  simp [firstUnsatisfiedFrom?, h]

variable {s} in
theorem firstUnsatisfiedFrom?_of_false {z : List F} {i : Nat} (h : s.rowHolds? z i = some false)
    (count : Nat) : s.firstUnsatisfiedFrom? z i (count + 1) = some (some i) := by
  simp [firstUnsatisfiedFrom?, h]

variable {s} in
theorem firstUnsatisfiedFrom?_of_none {z : List F} {i : Nat} (h : s.rowHolds? z i = none)
    (count : Nat) : s.firstUnsatisfiedFrom? z i (count + 1) = none := by
  simp [firstUnsatisfiedFrom?, h]

/-- The search ends without a row only if all of them hold. -/
theorem firstUnsatisfiedFrom?_eq_none_iff (z : List F) (i count : Nat) :
    s.firstUnsatisfiedFrom? z i count = some none ↔
      ∀ row, i ≤ row → row < i + count → s.rowHolds? z row = some true := by
  induction count generalizing i with
  | zero =>
    simp only [firstUnsatisfiedFrom?, true_iff]
    intro row hle hlt
    omega
  | succ count ih =>
    have hsplit : (∀ row, i ≤ row → row < i + (count + 1) → s.rowHolds? z row = some true) ↔
        s.rowHolds? z i = some true ∧
          ∀ row, i + 1 ≤ row → row < i + 1 + count → s.rowHolds? z row = some true := by
      constructor
      · intro h
        exact ⟨h i (by omega) (by omega), fun row hle hlt => h row (by omega) (by omega)⟩
      · rintro ⟨hfirst, hrest⟩ row hle hlt
        rcases Nat.eq_or_lt_of_le hle with rfl | hlt'
        · exact hfirst
        · exact hrest row hlt' (by omega)
    rw [hsplit, ← ih]
    rcases hrow : s.rowHolds? z i with - | - | -
    · simp [firstUnsatisfiedFrom?_of_none hrow]
    · simp [firstUnsatisfiedFrom?_of_false hrow]
    · simp [firstUnsatisfiedFrom?_of_true hrow]

/-- A row that fails after rows that hold is the one that is found. -/
theorem firstUnsatisfiedFrom?_eq_some (z : List F) {i count row : Nat} (hle : i ≤ row)
    (hlt : row < i + count) (hfails : s.rowHolds? z row = some false)
    (hearlier : ∀ earlier, i ≤ earlier → earlier < row → s.rowHolds? z earlier = some true) :
    s.firstUnsatisfiedFrom? z i count = some (some row) := by
  induction count generalizing i with
  | zero => omega
  | succ count ih =>
    rcases Nat.eq_or_lt_of_le hle with rfl | hlt'
    · exact firstUnsatisfiedFrom?_of_false hfails count
    · rw [firstUnsatisfiedFrom?_of_true (hearlier i (Nat.le_refl i) hlt')]
      refine ih hlt' (by omega) fun earlier hge hbefore => ?_
      exact hearlier earlier (by omega) hbefore

end

end ConstraintSystem

end CircuitProof
