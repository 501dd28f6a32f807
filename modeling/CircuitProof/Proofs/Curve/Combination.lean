import Mathlib.Algebra.BigOperators.Group.Finset.Basic
import Mathlib.Algebra.Module.BigOperators
import Mathlib.Tactic.Module
import CircuitProof.Curve.Combination
import CircuitProof.Proofs.Curve.Point

/-!
# Sums of multiples on a curve

On a curve the windows, the buckets and the running sums come to the sum of the multiples. The argument
follows the layers of the computation: one bucket, the sums of the buckets for one place of the digits,
and the places joined like the digits of a number.
-/

namespace CircuitProof

open Finset (sum_range_succ)

/-! ## Running sums -/

section Group

variable {A : Type} [AddCommGroup A]

/-- Running sums from the highest bucket down count each bucket once for itself and once for every
bucket below it. -/
theorem foldl_running (bucket : Nat → A) (n : Nat) (sums : A × A) :
    ((List.range n).reverse.foldl
      (fun (sums : A × A) d => (sums.1 + bucket d, sums.2 + (sums.1 + bucket d))) sums).2 =
        sums.2 + n • sums.1 + ∑ d ∈ Finset.range n, (d + 1) • bucket d := by
  induction n generalizing sums with
  | zero => simp
  | succ n ih =>
    rw [List.range_succ, List.reverse_append, List.reverse_singleton, List.singleton_append,
      List.foldl_cons, ih, sum_range_succ]
    module

/-- How often a term with digit `t` counts in the bucket of digit `d`. -/
def bucketSign (d t : Int) : Int := if t = d then 1 else if t = -d then -1 else 0

/-- Counted as often as its number says, the only bucket that a digit falls into gives the digit. -/
theorem sum_bucketSign {n : Nat} {t : Int} (h : t.natAbs ≤ n) :
    ∑ d ∈ Finset.range n, ((d + 1 : Nat) : Int) * bucketSign (d + 1 : Nat) t = t := by
  have hsum : ∀ n : Nat, ∑ d ∈ Finset.range n, ((d + 1 : Nat) : Int) * bucketSign (d + 1 : Nat) t =
      if t.natAbs ≤ n then t else 0 := by
    intro n
    induction n with
    | zero =>
      rw [Finset.sum_range_zero]
      split <;> omega
    | succ n ih =>
      rw [sum_range_succ, ih, bucketSign]
      split_ifs <;> omega
  rw [hsum, if_pos h]

/-- The bucket of a digit is added up as often as the digit says. -/
theorem sum_buckets {n : Nat} (terms : List (Int × A)) (h : ∀ term ∈ terms, term.1.natAbs ≤ n) :
    ∑ d ∈ Finset.range n,
        (d + 1) • (terms.map fun term => bucketSign (d + 1 : Nat) term.1 • term.2).sum =
      (terms.map fun term => term.1 • term.2).sum := by
  induction terms with
  | nil => simp
  | cons term terms ih =>
    have hterm : ∑ d ∈ Finset.range n, (d + 1) • bucketSign (d + 1 : Nat) term.1 • term.2 =
        term.1 • term.2 := by
      conv_rhs => rw [← sum_bucketSign (h term List.mem_cons_self), Finset.sum_smul]
      refine Finset.sum_congr rfl fun d _ => ?_
      rw [mul_smul, natCast_zsmul]
    simp only [List.map_cons, List.sum_cons, smul_add, Finset.sum_add_distrib]
    rw [hterm, ih fun t ht => h t (List.mem_cons_of_mem _ ht)]

/-! ## Joining the places -/

/-- The sums of the places joined like the digits of a number, the least significant first. -/
def joined (width : Nat) : List A → A
  | [] => 0
  | sum :: rest => sum + 2 ^ width • joined width rest

/-- Digits of the same length may be summed up place by place. -/
theorem joined_places (width : Nat) {count : Nat} (terms : List (List Int × A))
    (h : ∀ term ∈ terms, term.1.length = count) :
    joined width ((List.range count).map fun place =>
        (terms.map fun term => (term.1[place]?.getD 0) • term.2).sum) =
      (terms.map fun term => ofWindows width term.1 • term.2).sum := by
  induction count generalizing terms with
  | zero =>
    have hzero : ∀ x ∈ terms.map fun term => ofWindows width term.1 • term.2, x = 0 := by
      intro x hx
      obtain ⟨term, hterm, rfl⟩ := List.mem_map.mp hx
      rw [List.length_eq_zero_iff.mp (h term hterm), ofWindows, zero_smul]
    rw [List.sum_eq_zero hzero]
    rfl
  | succ count ih =>
    have htail := ih (terms.map fun term => (term.1.tail, term.2)) (by
      intro term hterm
      obtain ⟨t, ht, rfl⟩ := List.mem_map.mp hterm
      rw [List.length_tail, h t ht, Nat.add_sub_cancel])
    simp only [List.map_map, Function.comp_def, List.getElem?_tail] at htail
    rw [List.range_succ_eq_map, List.map_cons, List.map_map, joined]
    simp only [Function.comp_def, Nat.succ_eq_add_one]
    rw [htail, List.smul_sum, List.map_map, ← List.sum_map_add]
    refine congrArg List.sum (List.map_congr_left fun term hterm => ?_)
    cases hdigits : term.1 with
    | nil =>
      have hlength := h term hterm
      rw [hdigits] at hlength
      cases hlength
    | cons digit rest =>
      have hweight : (Nat.pow 2 width : Nat) = 2 ^ width := rfl
      simp only [Function.comp, hdigits, List.getElem?_cons_zero, Option.getD_some, List.tail_cons,
        ofWindows, hweight, add_smul, mul_smul, natCast_zsmul]
      rw [smul_comm]

end Group

/-! ## The digits -/

/-- No digit exceeds the radix. -/
theorem natAbs_le_of_mem_signedWindows {width count n : Nat} (h : n ≤ 2 ^ (width * count)) {d : Int}
    (hd : d ∈ signedWindows width count n) : d.natAbs ≤ 2 ^ width := by
  fun_induction signedWindows width count n with
  | case1 => cases hd
  | case2 n =>
    rw [List.mem_singleton.mp hd]
    simpa using h
  | case3 count n rest ih =>
    have hpos : 0 < 2 ^ width := Nat.two_pow_pos width
    have hrest : rest = (n + 2 ^ width / 2) / 2 ^ width := rfl
    have hdivision := Nat.div_add_mod (n + 2 ^ width / 2) (2 ^ width)
    have hmod := Nat.mod_lt (n + 2 ^ width / 2) hpos
    rw [← hrest, Nat.mul_comm] at hdivision
    rcases List.mem_cons.mp hd with rfl | hmem
    · have hweight : rest * Nat.pow 2 width = rest * 2 ^ width := rfl
      rw [hweight]
      omega
    · refine ih ?_ hmem
      have hn : n ≤ 2 ^ (width * (count + 1)) * 2 ^ width :=
        h.trans_eq (pow_add 2 (width * (count + 1)) width)
      rw [hrest, Nat.div_le_iff_le_mul_add_pred hpos, Nat.mul_comm]
      omega

/-! ## Windows of points of a curve -/

namespace Jacobian

namespace Represents

variable {K : Type} [Field K] [DecidableEq K] [NeZero (2 : K)] {b : K}

theorem doubleTimes {p : Jacobian K} {P : (curve b).Point} (hp : p.Represents P) (n : Nat) :
    (p.doubleTimes n).Represents (2 ^ n • P) := by
  induction n generalizing p P with
  | zero => rwa [pow_zero, one_smul]
  | succ n ih =>
    rw [pow_succ, mul_smul, two_smul]
    exact ih hp.double

theorem bucket (d : Int) (terms : List (Int × (curve b).Point)) :
    (bucket d (terms.map (Prod.map id Point.ofCurve))).Represents
      (terms.map fun term => bucketSign d term.1 • term.2).sum := by
  have hfold : ∀ {start : Jacobian K} {P : (curve b).Point}, start.Represents P →
      ((terms.map (Prod.map id Point.ofCurve)).foldl
        (fun (sum : Jacobian K) term =>
          if term.1 = d then sum.add (.ofPoint term.2)
          else if term.1 = -d then sum.add (.ofPoint term.2.neg)
          else sum) start).Represents
        (P + (terms.map fun term => bucketSign d term.1 • term.2).sum) := by
    induction terms with
    | nil =>
      intro start P h
      rwa [List.map_nil, List.map_nil, List.sum_nil, add_zero]
    | cons term terms ih =>
      intro start P h
      rw [List.map_cons, List.map_cons, List.foldl_cons, List.sum_cons, ← add_assoc]
      refine ih ?_
      simp only [Prod.map, id_eq, bucketSign]
      split_ifs
      · rw [one_smul]
        exact h.add (ofPoint term.2)
      · rw [neg_smul, one_smul, ← Point.ofCurve_neg]
        exact h.add (ofPoint (-term.2))
      · rwa [zero_smul, add_zero]
  have h := hfold (infinity (b := b))
  rwa [zero_add] at h

/-- The running sums from the highest bucket down meet every bucket as often as its digit says. -/
theorem windowSum (width : Nat) (terms : List (Int × (curve b).Point))
    (h : ∀ term ∈ terms, term.1.natAbs ≤ 2 ^ width) :
    (windowSum width (terms.map (Prod.map id Point.ofCurve))).Represents
      (terms.map fun term => term.1 • term.2).sum := by
  have hfold : ∀ (places : List Nat) (sums : Jacobian K × Jacobian K)
      (totals : (curve b).Point × (curve b).Point),
      sums.1.Represents totals.1 → sums.2.Represents totals.2 →
      (places.foldl
        (fun (sums : Jacobian K × Jacobian K) d =>
          let running := sums.1.add
            (Jacobian.bucket (d + 1 : Nat) (terms.map (Prod.map id Point.ofCurve)))
          (running, sums.2.add running)) sums).2.Represents
        (places.foldl
          (fun (totals : (curve b).Point × (curve b).Point) d =>
            let sum := (terms.map fun term => bucketSign (d + 1 : Nat) term.1 • term.2).sum
            (totals.1 + sum, totals.2 + (totals.1 + sum))) totals).2 := by
    intro places
    induction places with
    | nil => exact fun _ _ _ h => h
    | cons d places ih =>
      intro sums totals hrunning htotal
      have hadd := hrunning.add (bucket (d + 1 : Nat) terms)
      exact ih _ _ hadd (htotal.add hadd)
  have hsums := hfold (List.range (2 ^ width)).reverse (.infinity, .infinity) (0, 0) infinity infinity
  rw [foldl_running, smul_zero, add_zero, zero_add, sum_buckets terms h] at hsums
  exact hsums

theorem ofWindows (width : Nat) {sums : List (Jacobian K)} {totals : List (curve b).Point}
    (h : List.Forall₂ Represents sums totals) :
    (ofWindows width sums).Represents (joined width totals) := by
  cases h with
  | nil => exact infinity
  | cons hlowest hrest =>
    refine hlowest.add ?_
    rw [List.foldl_reverse]
    induction hrest with
    | nil =>
      rw [joined, smul_zero]
      exact infinity
    | cons hsum _ ih =>
      rw [joined, add_comm]
      exact (ih.add hsum).doubleTimes width

/-- Numbers that are cut into digits multiply the points beside them. -/
theorem places (width count : Nat) (cuts : List (List Int × (curve b).Point))
    (hlength : ∀ cut ∈ cuts, cut.1.length = count)
    (hdigits : ∀ cut ∈ cuts, ∀ digit ∈ cut.1, digit.natAbs ≤ 2 ^ width) :
    (Jacobian.ofWindows width ((List.range count).map fun place =>
        Jacobian.windowSum width
          ((cuts.map (Prod.map id Point.ofCurve)).map fun cut =>
            (cut.1[place]?.getD 0, cut.2)))).Represents
      (cuts.map fun cut => CircuitProof.ofWindows width cut.1 • cut.2).sum := by
  rw [← joined_places width cuts hlength]
  refine ofWindows width (List.forall₂_map_left_iff.mpr (List.forall₂_map_right_iff.mpr
    (List.forall₂_same.mpr fun place _ => ?_)))
  have hplace := windowSum width (cuts.map fun cut => (cut.1[place]?.getD 0, cut.2)) (by
      intro term hterm
      obtain ⟨cut, hcut, rfl⟩ := List.mem_map.mp hterm
      cases hdigit : cut.1[place]? with
      | none => exact Nat.zero_le _
      | some digit => exact hdigits cut hcut digit (List.mem_of_getElem? hdigit))
  rw [List.map_map, List.map_map] at hplace
  rw [List.map_map]
  exact hplace

end Represents

end Jacobian

/-! ## The sum of the multiples -/

namespace Point

variable {K : Type} [Field K] [DecidableEq K] [NeZero (2 : K)] {b : K}

theorem windowWidth_pos (count : Nat) : 0 < windowWidth count := by
  rw [windowWidth]
  split <;> omega

/-- Numbers that fit into the bits multiply the points beside them. -/
theorem combine_ofCurve {bits : Nat} (hbits : 0 < bits) {numbers : List Nat}
    (hnumbers : ∀ n ∈ numbers, n < 2 ^ bits) (points : List (curve b).Point) :
    combine bits numbers (points.map ofCurve) =
      ofCurve ((numbers.zip points).map fun term => term.1 • term.2).sum := by
  rw [combine, List.zip_map_right]
  have hwidth := windowWidth_pos ((numbers.zip points).map (Prod.map id ofCurve)).length
  generalize windowWidth ((numbers.zip points).map (Prod.map id ofCurve)).length = width at hwidth ⊢
  have hle : bits ≤ width * ((bits + width - 1) / width) := by
    have := Nat.div_add_mod (bits + width - 1) width
    have := Nat.mod_lt (bits + width - 1) hwidth
    omega
  generalize (bits + width - 1) / width = count at hle ⊢
  have hcount : 0 < count := Nat.pos_of_mul_pos_left (hbits.trans_le hle)
  let cuts := (numbers.zip points).map fun term => (signedWindows width count term.1, term.2)
  have hrepresents := Jacobian.Represents.places width count cuts
    (by
      intro cut hcut
      obtain ⟨term, _, rfl⟩ := List.mem_map.mp hcut
      exact length_signedWindows ..)
    (by
      intro cut hcut digit hdigit
      obtain ⟨term, hterm, rfl⟩ := List.mem_map.mp hcut
      have hbound := (hnumbers _ (List.of_mem_zip hterm).1).le.trans
        (Nat.pow_le_pow_right Nat.two_pos hle)
      exact natAbs_le_of_mem_signedWindows hbound hdigit)
  have hvalues : (cuts.map fun cut => ofWindows width cut.1 • cut.2) =
      (numbers.zip points).map fun term => term.1 • term.2 := by
    rw [List.map_map]
    refine List.map_congr_left fun term _ => ?_
    rw [Function.comp, ofWindows_signedWindows _ _ _ hcount, natCast_zsmul]
  rw [hvalues, List.map_map] at hrepresents
  rw [List.map_map]
  exact hrepresents

end Point

end CircuitProof
