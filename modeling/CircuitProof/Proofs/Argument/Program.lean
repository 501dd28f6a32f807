import CircuitProof.Proofs.Polynomial.Equivalence
import CircuitProof.Proofs.System.Satisfaction

/-!
# The program of a constraint system

A system without a defect yields a program whose matrices fit together, and an assignment satisfies
the program exactly if every row of the system holds.
-/

namespace CircuitProof

variable {F : Type}

theorem Matrix.columnsBelow_of_firstColumnFrom {m : Matrix F} {bound : Nat}
    (h : m.firstColumnFrom bound = none) : m.columnsBelow bound = true := by
  rw [columnsBelow, List.all_eq_true]
  intro row hrow
  rw [List.all_eq_true]
  intro term hterm
  obtain ⟨i, hi, rfl⟩ := List.getElem_of_mem hrow
  rw [firstColumnFrom, List.findSome?_eq_none_iff] at h
  have hfind := h (m.rows[i], i) (List.mem_zipIdx_iff_getElem?.mpr (List.getElem?_eq_getElem hi))
  rw [Option.map_eq_none_iff, List.find?_eq_none] at hfind
  simpa using hfind term hterm

namespace ConstraintSystem

variable {s : ConstraintSystem F}

theorem matrixDefect?_eq_none {label : String} {m : Matrix F}
    (h : s.matrixDefect? label m = none) :
    m.width = s.numColumns ∧ m.columnsBelow s.numColumns = true := by
  rw [matrixDefect?] at h
  split at h
  · cases h
  · next hwidth =>
    rw [Option.map_eq_none_iff] at h
    exact ⟨not_not.mp hwidth, Matrix.columnsBelow_of_firstColumnFrom h⟩

/-- The matrices of a system without a defect fit together, and all are as wide as it is. -/
theorem fits_of_defect? (h : s.defect? = none) :
    (QuadraticProgram.ofSystem s).Fits ∧ s.a.width = s.numColumns ∧ s.b.width = s.numColumns ∧
      s.c.width = s.numColumns := by
  rw [defect?] at h
  split at h
  · cases h
  · next hheights =>
    obtain ⟨ha, hrest⟩ := Option.or_eq_none_iff.mp h
    obtain ⟨hb, hrest⟩ := Option.or_eq_none_iff.mp hrest
    obtain ⟨hc, -⟩ := Option.or_eq_none_iff.mp hrest
    obtain ⟨hwidth_a, hbelow_a⟩ := matrixDefect?_eq_none ha
    obtain ⟨hwidth_b, hbelow_b⟩ := matrixDefect?_eq_none hb
    obtain ⟨hwidth_c, hbelow_c⟩ := matrixDefect?_eq_none hc
    have hcolumns : (QuadraticProgram.ofSystem s).numColumns = s.numColumns := hwidth_a
    have hheight_b : s.b.height = s.a.height := by
      by_contra hne
      exact hheights (.inl hne)
    have hheight_c : s.c.height = s.a.height := by
      by_contra hne
      exact hheights (.inr hne)
    refine ⟨⟨hheight_b, hheight_c, ?_, ?_, ?_, ?_⟩, hwidth_a, hwidth_b, hwidth_c⟩
    all_goals rw [hcolumns]
    · exact hbelow_a
    · exact hbelow_b
    · exact hbelow_c
    · rw [numColumns]
      change s.numStatement ≤ _
      rw [numStatement]
      omega

variable [Field F]

theorem valueAt_rowValues {m : Matrix F} {z : List F} {row : Nat} {terms : Row F}
    (hrow : m.rows[row]? = some terms) :
    valueAt (QuadraticProgram.rowValues m z) row = terms.eval (valueAt z) := by
  rw [QuadraticProgram.rowValues, valueAt, List.getElem?_map, hrow, Option.map_some,
    Option.getD_some]

variable [DecidableEq F]

/-- A row compares the inner products of the three matrices' rows. -/
theorem rowHolds?_eq_decide {z : List F} {row : Nat} (hfits : (QuadraticProgram.ofSystem s).Fits)
    (hz : z.length = (QuadraticProgram.ofSystem s).numColumns) (hlt : row < s.numConstraints) :
    s.rowHolds? z row = some (decide (valueAt (QuadraticProgram.rowValues s.a z) row *
        valueAt (QuadraticProgram.rowValues s.b z) row =
      valueAt (QuadraticProgram.rowValues s.c z) row)) := by
  have hterms : ∀ m : Matrix F, m.height = s.numConstraints → m.columnsBelow z.length = true →
      ∃ terms, m.rows[row]? = some terms ∧ terms.eval? z = some (terms.eval (valueAt z)) := by
    intro m hheight hbelow
    have hrow : row < m.rows.length := by
      rw [Matrix.height] at hheight
      omega
    refine ⟨m.rows[row], List.getElem?_eq_getElem hrow, Row.eval?_of_below ?_⟩
    exact QuadraticProgram.below_of_columnsBelow hbelow _ (List.getElem_mem hrow)
  obtain ⟨a, ha, hvalue_a⟩ := hterms s.a rfl (by rw [hz]; exact hfits.below_a)
  obtain ⟨b, hb, hvalue_b⟩ := hterms s.b hfits.height_b (by rw [hz]; exact hfits.below_b)
  obtain ⟨c, hc, hvalue_c⟩ := hterms s.c hfits.height_c (by rw [hz]; exact hfits.below_c)
  rw [valueAt_rowValues ha, valueAt_rowValues hb, valueAt_rowValues hc]
  simp [rowHolds?, ha, hb, hc, hvalue_a, hvalue_b, hvalue_c]

/-- Within its columns a system reads no coefficient from outside, so its rows can be taken as total
functions of an assignment. -/
theorem satisfied_iff_rowHolds? {z : List F} (hfits : (QuadraticProgram.ofSystem s).Fits)
    (hz : z.length = (QuadraticProgram.ofSystem s).numColumns) :
    (QuadraticProgram.ofSystem s).Satisfied z ↔
      ∀ row < s.numConstraints, s.rowHolds? z row = some true := by
  refine forall₂_congr fun row hrow => ?_
  rw [rowHolds?_eq_decide hfits hz hrow, Option.some.injEq, decide_eq_true_iff]
  rfl

end ConstraintSystem

end CircuitProof
