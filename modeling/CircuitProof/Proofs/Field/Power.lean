import Mathlib.NumberTheory.LucasPrimality
import CircuitProof.Field.Residue

/-!
# Powers by squaring, and primes

Reading an exponent from its most significant digit down gives the power, with digits to any base.
So the order of a residue can be computed, and a number whose predecessor is the order of some
residue modulo the number is prime. The prime factors of the predecessor are shown to be prime in
the same way, smaller ones first.
-/

namespace CircuitProof

theorem foldl_digits {M : Type} [CommMonoid M] (x acc : M) (n k : Nat) :
    ((List.range k).reverse.map n.testBit).foldl
        (fun acc digit => if digit then acc * acc * x else acc * acc) acc =
      acc ^ 2 ^ k * x ^ (n % 2 ^ k) := by
  induction k generalizing acc with
  | zero => simp [Nat.mod_one]
  | succ k ih =>
    rw [List.range_succ, List.reverse_append, List.reverse_singleton, List.singleton_append,
      List.map_cons, List.foldl_cons, ih, Nat.mod_pow_succ, ← Nat.toNat_testBit, pow_succ, pow_add,
      pow_mul']
    cases n.testBit k
    · simp [mul_pow, pow_two]
    · simp only [if_true, mul_pow, pow_two, Bool.toNat_true, mul_one]
      rw [mul_assoc, mul_comm (x ^ (n % 2 ^ k))]

/-- Squaring and multiplying along the digits gives the power of the monoid. -/
theorem power_eq_pow {M : Type} [CommMonoid M] (x : M) (n : Nat) : power x n = x ^ n := by
  by_cases hn : n = 0
  · simp [hn]
  · have hlt : n < 2 ^ (n.log2 + 1) := Nat.lt_log2_self
    rw [power, binaryDigits, if_neg hn, foldl_digits, one_pow, one_mul, Nat.mod_eq_of_lt hlt]

/-- The power modulo `m`, from the last `count` digits of the exponent to the base 256. -/
def powerMod (m base : Nat) : Nat → Nat → Nat
  | 0, _ => 1 % m
  | count + 1, n => powerMod m base count (n / 256) ^ 256 * base ^ (n % 256) % m

theorem powerMod_eq (m base : Nat) {count n : Nat} (h : n < 256 ^ count) :
    powerMod m base count n = base ^ n % m := by
  induction count generalizing n with
  | zero =>
    obtain rfl : n = 0 := Nat.lt_one_iff.mp h
    rfl
  | succ count ih =>
    have hlt : n / 256 < 256 ^ count := Nat.div_lt_of_lt_mul (by rwa [mul_comm, ← pow_succ])
    have hsplit : base ^ n = (base ^ (n / 256)) ^ 256 * base ^ (n % 256) := by
      rw [← pow_mul, ← pow_add, mul_comm, Nat.div_add_mod]
    rw [powerMod, ih hlt, hsplit, Nat.mul_mod, ← Nat.pow_mod, ← Nat.mul_mod]

/-- A residue that is to show a number prime, with the factors of the number's predecessor and
their exponents. -/
structure OrderStep where
  predecessor : Nat
  base : Nat
  factors : List (Nat × Nat)

namespace OrderStep

def number (step : OrderStep) : Nat := step.predecessor + 1

/-- The residue's power modulo the number. -/
def powerOf (step : OrderStep) (n : Nat) : Nat := powerMod step.number step.base 32 n

/-- The predecessor is the order of the residue, if all factors are prime. -/
def Shows (step : OrderStep) : Prop :=
  0 < step.predecessor ∧ step.predecessor < 256 ^ 32 ∧
    (step.factors.map fun f => f.1 ^ f.2).prod = step.predecessor ∧
    step.powerOf step.predecessor = 1 ∧
    ∀ f ∈ step.factors, step.powerOf (step.predecessor / f.1) ≠ 1

instance (step : OrderStep) : Decidable step.Shows :=
  inferInstanceAs (Decidable (_ ∧ _ ∧ _ ∧ _ ∧ _))

theorem cast_pow_eq_one_iff {step : OrderStep} (hpos : 0 < step.predecessor) {n : Nat}
    (hn : n < 256 ^ 32) :
    (step.base : ZMod step.number) ^ n = 1 ↔ step.powerOf n = 1 := by
  have hone : 1 % step.number = 1 := Nat.mod_eq_of_lt (Nat.succ_lt_succ hpos)
  rw [powerOf, powerMod_eq _ _ hn, ← Nat.cast_pow, ← Nat.cast_one,
    ZMod.natCast_eq_natCast_iff', hone]

/-- A residue whose order is the predecessor of its modulus shows the modulus prime. -/
theorem prime_of_shows {step : OrderStep} (h : step.Shows)
    (hfactors : ∀ f ∈ step.factors, f.1.Prime) : step.number.Prime := by
  obtain ⟨hpos, hlt, hproduct, hone, hne⟩ := h
  have hpred : step.number - 1 = step.predecessor := rfl
  refine lucas_primality step.number step.base ?_ fun q hq hdvd => ?_
  · rw [hpred]
    exact (cast_pow_eq_one_iff hpos hlt).mpr hone
  · rw [hpred, ← hproduct] at hdvd
    obtain ⟨value, hvalue, hfactor⟩ := (Prime.dvd_prod_iff hq.prime).mp hdvd
    obtain ⟨f, hmem, rfl⟩ := List.mem_map.mp hvalue
    have heq : q = f.1 :=
      (Nat.prime_dvd_prime_iff_eq hq (hfactors f hmem)).mp (hq.dvd_of_dvd_pow hfactor)
    have hle : step.predecessor / f.1 ≤ step.predecessor := Nat.div_le_self _ _
    rw [hpred, heq, Ne, cast_pow_eq_one_iff hpos (hle.trans_lt hlt)]
    exact hne f hmem

/-- Each step shows its number prime, with factors that are known or were shown before. -/
def Chain (known : List Nat) : List OrderStep → Prop
  | [] => True
  | step :: rest =>
    (∀ f ∈ step.factors, f.1 ∈ known) ∧ step.Shows ∧ Chain (step.number :: known) rest

instance Chain.decidable (known : List Nat) : (steps : List OrderStep) →
    Decidable (Chain known steps)
  | [] => inferInstanceAs (Decidable True)
  | step :: rest =>
    have := Chain.decidable (step.number :: known) rest
    inferInstanceAs (Decidable (_ ∧ _ ∧ _))

/-- The factors that one step needs are shown prime by steps before it. -/
theorem prime_of_chain {known : List Nat} {steps : List OrderStep} (h : Chain known steps)
    (hknown : ∀ q ∈ known, q.Prime) {step : OrderStep} (hstep : step ∈ steps) :
    step.number.Prime := by
  induction steps generalizing known with
  | nil => cases hstep
  | cons first rest ih =>
    obtain ⟨hfactors, hshows, hrest⟩ := h
    have hfirst := prime_of_shows hshows fun f hf => hknown f.1 (hfactors f hf)
    rcases List.mem_cons.mp hstep with rfl | hmem
    · exact hfirst
    · refine ih hrest (fun q hq => ?_) hmem
      rcases List.mem_cons.mp hq with rfl | hq
      · exact hfirst
      · exact hknown q hq

end OrderStep

end CircuitProof
