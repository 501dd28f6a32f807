import CircuitProof.Circuit.Samples
import CircuitProof.Proofs.Bn254.Fields
import CircuitProof.Proofs.Circuit.Witness

/-!
# What the samples say

The sum has one row and no column of its own, and admits its inputs exactly if they add up. Numbers
of 64 bits add up as residues exactly if they do as numbers.
-/

namespace CircuitProof

namespace Circuit

def sumSystem : ConstraintSystem Scalar where
  a := ⟨[[(1, 1), (2, -1), (3, 1)]], 4⟩
  b := ⟨[[(0, 1)]], 4⟩
  c := ⟨[[]], 4⟩
  numShown := 2
  numHidden := 1
  numAuxiliary := 0
  names := ["one", "A", "Sum", "B"]
  relationOfRow := [0]
  gates := []

theorem compile_sum : (sum : Circuit Scalar).compile .reject = .ok sumSystem := by
  decide +kernel

/-- The sum admits the inputs that add up. -/
theorem sum_admits_iff {F : Type} [Field F] [DecidableEq F] (a b total : F) :
    (sum : Circuit F).Admits [a, total] [b] ↔ a + b = total := by
  have hvalues : (sum : Circuit F).environment [a, total] [b] "A" = a ∧
      (sum : Circuit F).environment [a, total] [b] "B" = b ∧
      (sum : Circuit F).environment [a, total] [b] "Sum" = total := ⟨rfl, rfl, rfl⟩
  obtain ⟨ha, hb, htotal⟩ := hvalues
  have hrelation : ∀ env : String → F, (∀ r ∈ (sum : Circuit F).relations, r.Holds env) ↔
      env "A" + env "B" = env "Sum" := by
    intro env
    simp [sum, Relation.Holds, Expression.value?, eq_comm]
  constructor
  · intro h
    have hholds := (hrelation _).mp h.relations_hold
    rwa [ha, hb, htotal] at hholds
  · intro h
    refine ⟨fun d hd => ?_, (hrelation _).mpr (by rw [ha, hb, htotal, h])⟩
    simp [denominators, sum, Relation.denominators, Relation.sides, Expression.denominators] at hd

section
variable {a b total : Scalar}

/-- Generating a witness for the sum decides whether its inputs add up. -/
theorem exists_witness_sum_iff :
    (∃ w, sumSystem.generateWitness [a, total] [b] = .ok w) ↔ a + b = total := by
  obtain ⟨blocks, hblocks⟩ := compiled_of_compile compile_sum
  have hdecides : (sum : Circuit Scalar).Decides sumSystem [a, total] [b]
      (sumSystem.generateWitness [a, total] [b]) := hblocks.generateWitness_decides rfl rfl
  exact hdecides.exists_ok_iff.trans (sum_admits_iff a b total)

end

/-- Residues of numbers that are small add up if the numbers do. -/
theorem natCast_add_eq_iff {a b total : Nat} (ha : a < 2 ^ 64) (hb : b < 2 ^ 64)
    (htotal : total < 2 ^ 64) : ((a : Scalar) + (b : Scalar) = (total : Scalar)) ↔ a + b = total := by
  have hval : ∀ n : Nat, (n : Scalar).val = n % scalarModulus := fun _ => rfl
  have hsum : (a : Scalar) + (b : Scalar) = ((a + b : Nat) : Scalar) := (Nat.cast_add a b).symm
  have hlarge : 2 ^ 65 < scalarModulus := by decide
  rw [hsum]
  constructor
  · intro h
    have hmod := congrArg Residue.val h
    rwa [hval, hval, Nat.mod_eq_of_lt (by omega), Nat.mod_eq_of_lt (by omega)] at hmod
  · exact congrArg _

end Circuit

end CircuitProof
