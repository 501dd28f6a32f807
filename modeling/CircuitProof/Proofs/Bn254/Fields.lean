import Mathlib.Tactic.NormNum.Prime
import CircuitProof.Bn254.Domain
import CircuitProof.Proofs.Field.Power
import CircuitProof.Proofs.Field.Residue

/-!
# The moduli of BN254 are prime

Each is prime by the factors of its predecessor and, in turn, of theirs.
-/

namespace CircuitProof

def scalarSteps : List OrderStep :=
  [⟨639533338, 2, [(2, 1), (229, 1), (853, 1), (1637, 1)]⟩,
    ⟨405928798, 22, [(2, 1), (11, 1), (3691, 1), (4999, 1)]⟩,
    ⟨12048837556, 2, [(2, 2), (7, 2), (661, 1), (93001, 1)]⟩,
    ⟨5156902474396, 2, [(2, 2), (107, 1), (12048837557, 1)]⟩,
    ⟨1670836401704628, 2, [(2, 2), (3, 4), (5156902474397, 1)]⟩,
    ⟨65865678001877902, 5, [(2, 1), (83, 1), (379, 1), (1637, 1), (639533339, 1)]⟩,
    ⟨13818364434197438864469338080, 3,
      [(2, 5), (5, 1), (823, 1), (1593227, 1), (65865678001877903, 1)]⟩,
    ⟨scalarModulus - 1, 5,
      [(2, 28), (3, 2), (13, 1), (29, 1), (983, 1), (11003, 1), (237073, 1), (405928799, 1),
        (1670836401704629, 1), (13818364434197438864469338081, 1)]⟩]

theorem prime_scalarModulus : Nat.Prime scalarModulus := by
  have hknown : ∀ q ∈ [2, 3, 5, 7, 11, 13, 29, 83, 107, 229, 379, 661, 823, 853, 983, 1637, 3691,
      4999, 11003, 93001, 237073, 1593227], Nat.Prime q := by
    simp only [List.forall_mem_cons]
    norm_num
  have hchain : OrderStep.Chain [2, 3, 5, 7, 11, 13, 29, 83, 107, 229, 379, 661, 823, 853, 983,
      1637, 3691, 4999, 11003, 93001, 237073, 1593227] scalarSteps := by
    decide +kernel
  exact OrderStep.prime_of_chain hchain hknown (List.mem_of_getElem? (i := 7) rfl)

instance : Fact scalarModulus.Prime := ⟨prime_scalarModulus⟩

def baseSteps : List OrderStep :=
  [⟨405928798, 22, [(2, 1), (11, 1), (3691, 1), (4999, 1)]⟩,
    ⟨11465965000, 3, [(2, 3), (5, 4), (7, 1), (327599, 1)]⟩,
    ⟨4562086, 5, [(2, 1), (17, 1), (109, 1), (1231, 1)]⟩,
    ⟨173171038, 13, [(2, 1), (73, 1), (89, 1), (13327, 1)]⟩,
    ⟨1263766530, 10, [(2, 1), (3, 1), (5, 1), (13, 1), (911, 1), (3557, 1)]⟩,
    ⟨35385462868, 2, [(2, 2), (7, 1), (1263766531, 1)]⟩,
    ⟨2480874801745590, 6, [(2, 1), (3, 2), (5, 1), (19, 1), (41, 1), (35385462869, 1)]⟩,
    ⟨13427688667394608761327070753331941386768, 17,
      [(2, 4), (3, 1), (7, 1), (11, 1), (1853641, 1), (4562087, 1), (173171039, 1),
        (2480874801745591, 1)]⟩,
    ⟨baseModulus - 1, 3,
      [(2, 1), (3, 2), (13, 1), (29, 1), (67, 1), (229, 1), (311, 1), (983, 1), (11003, 1),
        (405928799, 1), (11465965001, 1), (13427688667394608761327070753331941386769, 1)]⟩]

theorem prime_baseModulus : Nat.Prime baseModulus := by
  have hknown : ∀ q ∈ [2, 3, 5, 7, 11, 13, 17, 19, 29, 41, 67, 73, 89, 109, 229, 311, 911, 983,
      1231, 3557, 3691, 4999, 11003, 13327, 327599, 1853641], Nat.Prime q := by
    simp only [List.forall_mem_cons]
    norm_num
  have hchain : OrderStep.Chain [2, 3, 5, 7, 11, 13, 17, 19, 29, 41, 67, 73, 89, 109, 229, 311, 911,
      983, 1231, 3557, 3691, 4999, 11003, 13327, 327599, 1853641] baseSteps := by
    decide +kernel
  exact OrderStep.prime_of_chain hchain hknown (List.mem_of_getElem? (i := 8) rfl)

instance : Fact baseModulus.Prime := ⟨prime_baseModulus⟩

end CircuitProof
