import CircuitProof.Curve.Point

/-!
# Sums of multiples

A sum of multiples of many points is formed window by window. Every number is cut into signed digits in
radix `2 ^ width`; for one place of the digits, the points with equal digits share a bucket, and running
sums count each bucket as often as its digit says. The sums of all places are then joined like the digits
of a number. On a curve this is the sum of the multiples; coordinates off the curve, whose addition is
not associative, are added up in the stated order.
-/

namespace CircuitProof

/-- The digits of `n` in radix `2 ^ width`, the least significant first. All lie between minus half the
radix and half the radix but the last one, which holds what is left. -/
def signedWindows (width : Nat) : Nat → Nat → List Int
  | 0, _ => []
  | 1, n => [n]
  | count + 2, n =>
    let rest := (n + Nat.pow 2 width / 2) / Nat.pow 2 width
    ((n : Int) - (rest * Nat.pow 2 width : Nat)) :: signedWindows width (count + 1) rest

@[simp] theorem length_signedWindows (width count n : Nat) :
    (signedWindows width count n).length = count := by
  fun_induction signedWindows width count n <;> simp_all

/-- The number that digits stand for. -/
def ofWindows (width : Nat) : List Int → Int
  | [] => 0
  | digit :: rest => digit + ofWindows width rest * (Nat.pow 2 width : Nat)

/-- One digit or more stand for the number that they were made from. -/
theorem ofWindows_signedWindows (width count n : Nat) (h : 0 < count) :
    ofWindows width (signedWindows width count n) = n := by
  fun_induction signedWindows width count n with
  | case1 => omega
  | case2 => simp [ofWindows]
  | case3 n count rest ih =>
    rw [ofWindows, ih (by omega), Int.natCast_mul]
    exact Int.sub_add_cancel _ _

variable {K : Type} [Zero K] [One K] [Add K] [Sub K] [Mul K] [Inv K] [DecidableEq K]

namespace Jacobian

/-- The sum of the points with the given digit and the negatives of those with the opposite one. -/
def bucket [Neg K] (digit : Int) (terms : List (Int × Point K)) : Jacobian K :=
  terms.foldl
    (fun sum term =>
      if term.1 = digit then sum.add (.ofPoint term.2)
      else if term.1 = -digit then sum.add (.ofPoint term.2.neg)
      else sum)
    infinity

/-- The sum of the points, each as often as its digit says, where digits go up to `2 ^ width`. The
running sum of the buckets from the highest one down is added up at every bucket. -/
def windowSum [Neg K] (width : Nat) (terms : List (Int × Point K)) : Jacobian K :=
  ((List.range (Nat.pow 2 width)).reverse.foldl
    (fun (sums : Jacobian K × Jacobian K) d =>
      let running := sums.1.add (bucket (d + 1 : Nat) terms)
      (running, sums.2.add running))
    (infinity, infinity)).2

def doubleTimes (p : Jacobian K) : Nat → Jacobian K
  | 0 => p
  | n + 1 => p.double.doubleTimes n

/-- Joins the sums of the places, the least significant first. -/
def ofWindows (width : Nat) : List (Jacobian K) → Jacobian K
  | [] => infinity
  | lowest :: rest =>
    lowest.add (rest.reverse.foldl (fun total sum => (total.add sum).doubleTimes width) infinity)

end Jacobian

namespace Point

/-- The length of the windows for a number of points: long lists share buckets more often. -/
def windowWidth (count : Nat) : Nat :=
  if count < 32 then 3 else ((count - 1).log2 + 1) * 69 / 100 + 2

/-- The sum of the points, each multiplied by the number beside it, for numbers of at most the given
length in bits. -/
def combine [Neg K] (bits : Nat) (numbers : List Nat) (points : List (Point K)) : Point K :=
  let terms := numbers.zip points
  let width := windowWidth terms.length
  let count := (bits + width - 1) / width
  let digits := terms.map fun term => (signedWindows width count term.1, term.2)
  let sums := (List.range count).map fun place =>
    Jacobian.windowSum width (digits.map fun term => (term.1[place]?.getD 0, term.2))
  (Jacobian.ofWindows width sums).toPoint

end Point

end CircuitProof
