import CircuitProof.Proofs.Argument.Balance
import CircuitProof.Proofs.Bn254.Lawful
import CircuitProof.Proofs.Contract.Verifier
import CircuitProof.Proofs.Encoding.Artifact

/-!
# Generated keys can be stored

Every point of a generated key is a multiple of a generator, hence a member of its group, and the
lists of points are as long as the columns or the domain. Keys for a system that fits in four-byte
counts are therefore read back from their artifacts.
-/

namespace CircuitProof

open Contract (groupsWith)
open Storable (Members CountsFit Valid countLimit)

theorem G1.valid_multiple (k : Scalar) : Valid (G1.group.multiple k) :=
  ⟨G1.group_lawful.multiple_mem k, trivial⟩

theorem G2.valid_multiple (k : Scalar) : Valid (G2.group.multiple k) :=
  ⟨G2.group_lawful.multiple_mem k, trivial⟩

/-- Multiples of the generator are members, so only their number can be too large. -/
theorem PointGroup.valid_ofScalars {G : Type} [Storable G] {group : PointGroup Scalar G}
    (hvalid : ∀ k, Valid (group.multiple k)) {scalars : List Scalar}
    (h : scalars.length < countLimit) : Valid (group.ofScalars scalars) := by
  refine (WordForm.valid_list_iff _).mpr ⟨by rwa [length_ofScalars], fun p hp => ?_⟩
  obtain ⟨k, -, rfl⟩ := List.mem_map.mp hp
  exact hvalid k

namespace Secrets.Generates

variable {T : Type} {product? : List (G1 × G2) → Option T} {secrets : Secrets Scalar}
  {s : ConstraintSystem Scalar} {pk : ProvingKey Scalar G1 G2} {d : Domain}
  {values : ProgramValues Scalar}

theorem valid_verifying (h : secrets.Generates (groupsWith product?) s pk d values)
    (hstatement : s.numStatement < countLimit) : Valid pk.verifying := by
  obtain ⟨hmembers, hcounts⟩ := PointGroup.valid_ofScalars G1.valid_multiple
    (h.length_statementScalars.trans_lt hstatement)
  rw [h.key_verifying]
  exact ⟨⟨(G1.valid_multiple _).1, (G2.valid_multiple _).1, (G2.valid_multiple _).1,
    (G2.valid_multiple _).1, hmembers⟩, trivial, trivial, trivial, trivial, hcounts⟩

/-- Keys can be stored if the system has a word form and its columns and its domain can be counted.
-/
theorem valid (h : secrets.Generates (groupsWith product?) s pk d values)
    (hprogram : CountsFit (QuadraticProgram.ofSystem s)) (hcolumns : s.numColumns < countLimit)
    (hdomain : d.size ≤ countLimit) : Valid pk := by
  obtain ⟨hlength_a, hlength_b, -⟩ := h.lengths
  have hquotient : (secrets.quotientScalars values).length < countLimit := by
    have hpos := d.size_pos
    rw [quotientScalars, List.length_map, length_powers, h.domainSize_eq]
    omega
  have hrest : (secrets.restScalars values s.numStatement).length < countLimit := by
    rw [restScalars, List.length_map, List.length_drop, h.length_combined_eq]
    omega
  obtain ⟨hverifying, hverifying'⟩ := h.valid_verifying (h.numStatement_le.trans_lt hcolumns)
  have hfirst : ∀ {scalars : List Scalar}, scalars.length < countLimit →
      Valid (G1.group.ofScalars scalars) := PointGroup.valid_ofScalars G1.valid_multiple
  have hsecond : ∀ {scalars : List Scalar}, scalars.length < countLimit →
      Valid (G2.group.ofScalars scalars) := PointGroup.valid_ofScalars G2.valid_multiple
  obtain ⟨ha, ha'⟩ := hfirst (hlength_a.trans_lt hcolumns)
  obtain ⟨hb₁, hb₁'⟩ := hfirst (hlength_b.trans_lt hcolumns)
  obtain ⟨hb₂, hb₂'⟩ := hsecond (hlength_b.trans_lt hcolumns)
  obtain ⟨hh, hh'⟩ := hfirst hquotient
  obtain ⟨hl, hl'⟩ := hfirst hrest
  have hmembers : Members (QuadraticProgram.ofSystem s) :=
    ⟨fun _ _ _ _ => trivial, fun _ _ _ _ => trivial, fun _ _ _ _ => trivial⟩
  have hkey := h.key
  subst hkey
  exact ⟨⟨hverifying, (G1.valid_multiple _).1, (G1.valid_multiple _).1, ha, hb₁, hb₂, hh, hl,
      hmembers⟩,
    hverifying', trivial, trivial, ha', hb₁', hb₂', hh', hl', hprogram⟩

end Secrets.Generates

end CircuitProof
