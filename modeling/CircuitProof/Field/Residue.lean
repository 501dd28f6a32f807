/-!
# Residues modulo a fixed number

A residue class is held as its least member, so two residues are equal exactly when their numbers
are. Inversion runs Euclid's algorithm and gives the inverse of every residue prime to the modulus;
zero is its own inverse, and callers that must refuse it use `inverse?`.
-/

namespace CircuitProof

/-! ## Powers by squaring

A power is read off the binary digits of its exponent, so an exponent of 256 bits costs at most
512 products. The same digits drive the scalar multiples of curve points.
-/

/-- The binary digits of `n`, the most significant first, and none for zero. -/
def binaryDigits (n : Nat) : List Bool :=
  if n = 0 then [] else (List.range (n.log2 + 1)).reverse.map n.testBit

@[simp] theorem binaryDigits_zero : binaryDigits 0 = [] := rfl

/-- `x` multiplied by itself `n` times, from the most significant digit of `n` down. -/
def power {M : Type} [One M] [Mul M] (x : M) (n : Nat) : M :=
  (binaryDigits n).foldl (fun acc digit => if digit then acc * acc * x else acc * acc) 1

@[simp] theorem power_zero {M : Type} [One M] [Mul M] (x : M) : power x 0 = 1 := rfl

/-! ## Residues -/

/-- The numbers that have residue classes. -/
class Modulus (p : Nat) : Prop where
  pos : 0 < p

/-- A residue class modulo `p`, held as its least member. -/
structure Residue (p : Nat) where
  val : Nat
  lt : val < p
  deriving DecidableEq

namespace Residue

variable {p : Nat}

theorem ext_val {a b : Residue p} (h : a.val = b.val) : a = b := by
  cases a; cases b; simp_all

variable [Modulus p]

@[inline] def ofNat (n : Nat) : Residue p := ⟨n % p, Nat.mod_lt _ (Modulus.pos)⟩

@[simp] theorem val_ofNat (n : Nat) : (ofNat n : Residue p).val = n % p := rfl

@[simp] theorem ofNat_val (a : Residue p) : ofNat a.val = a :=
  ext_val (Nat.mod_eq_of_lt a.lt)

/-- The class of an integer, negative ones counted down from `p`. -/
def ofInt (n : Int) : Residue p := ofNat (n % (p : Int)).toNat

instance : Zero (Residue p) := ⟨ofNat 0⟩
instance : One (Residue p) := ⟨ofNat 1⟩
instance : NatCast (Residue p) := ⟨ofNat⟩
instance : Inhabited (Residue p) := ⟨0⟩
instance : Mul (Residue p) := ⟨fun a b => ofNat (a.val * b.val)⟩

/-- A sum leaves the range by at most one modulus, so no division is needed. -/
protected def add (a b : Residue p) : Residue p :=
  if h : a.val + b.val < p then ⟨a.val + b.val, h⟩
  else ⟨a.val + b.val - p, by have := a.lt; have := b.lt; omega⟩

protected def sub (a b : Residue p) : Residue p :=
  if h : b.val ≤ a.val then ⟨a.val - b.val, by have := a.lt; omega⟩
  else ⟨a.val + p - b.val, by have := a.lt; omega⟩

instance : Add (Residue p) := ⟨Residue.add⟩
instance : Sub (Residue p) := ⟨Residue.sub⟩

instance : Neg (Residue p) := ⟨fun a => 0 - a⟩

@[simp] theorem val_zero : (0 : Residue p).val = 0 := Nat.zero_mod p
@[simp] theorem val_mul (a b : Residue p) : (a * b).val = a.val * b.val % p := rfl

omit [Modulus p] in
@[simp] theorem val_add (a b : Residue p) : (a + b).val = (a.val + b.val) % p := by
  have ha := a.lt
  have hb := b.lt
  change (if h : a.val + b.val < p then (⟨a.val + b.val, h⟩ : Residue p) else _).val = _
  split
  · next h => exact (Nat.mod_eq_of_lt h).symm
  · next h => rw [Nat.mod_eq_sub_mod (by omega), Nat.mod_eq_of_lt (by omega)]

omit [Modulus p] in
@[simp] theorem val_sub (a b : Residue p) : (a - b).val = (a.val + (p - b.val)) % p := by
  have ha := a.lt
  have hb := b.lt
  change (if h : b.val ≤ a.val then (⟨a.val - b.val, _⟩ : Residue p) else _).val = _
  split
  · next h =>
    rw [show a.val + (p - b.val) = a.val - b.val + p by omega, Nat.add_mod_right,
      Nat.mod_eq_of_lt (by omega)]
  · next h =>
    rw [Nat.mod_eq_of_lt (by omega)]
    change a.val + p - b.val = _
    omega

@[simp] theorem val_neg (a : Residue p) : (-a).val = (p - a.val) % p := by
  change (0 - a).val = _
  simp

/-- `a * b + c * d` with one reduction. -/
def mulAdd (a b c d : Residue p) : Residue p := ofNat (a.val * b.val + c.val * d.val)

/-- `a * b - c * d` with one reduction. -/
def mulSub (a b c d : Residue p) : Residue p :=
  ofNat (a.val * b.val + (p * p - c.val * d.val))

theorem mulAdd_eq (a b c d : Residue p) : mulAdd a b c d = a * b + c * d := by
  apply ext_val
  simp [mulAdd]

theorem mulSub_eq (a b c d : Residue p) : mulSub a b c d = a * b - c * d := by
  apply ext_val
  have hle : c.val * d.val ≤ p * p := Nat.mul_le_mul (Nat.le_of_lt c.lt) (Nat.le_of_lt d.lt)
  have hm : p * (c.val * d.val / p) + c.val * d.val % p = c.val * d.val := Nat.div_add_mod _ _
  have hlt : c.val * d.val % p < p := Nat.mod_lt _ (Modulus.pos)
  have hq : c.val * d.val / p + 1 ≤ p := by
    have hc : c.val * d.val < p * p := Nat.mul_lt_mul'' c.lt d.lt
    exact Nat.div_lt_of_lt_mul hc
  have hsplit : p * p - c.val * d.val
      = (p - c.val * d.val % p) + p * (p - (c.val * d.val / p + 1)) := by
    have hp : p * (c.val * d.val / p + 1) ≤ p * p := Nat.mul_le_mul_left p hq
    rw [Nat.mul_sub]
    rw [Nat.mul_add, Nat.mul_one] at *
    omega
  simp only [mulSub, val_ofNat, val_sub, val_mul, hsplit]
  rw [← Nat.add_assoc, Nat.add_mul_mod_self_left, Nat.mod_add_mod]

/-- Euclid's algorithm on `a` and `b`, with factors `s` and `t` such that `s * x` is `a` and `t * x`
is `b` up to opposite signs modulo the first `a`, where `x` is the first `b`. It ends with the factor
of the greatest common divisor and says whether that factor is to be negated. Each round halves
`a * b` at least, so `fuel` rounds suffice when `a * b < 2 ^ fuel`. -/
def euclid : Nat → Nat → Nat → Nat → Nat → Bool → Nat × Bool
  | 0, _, _, s, _, negative => (s, negative)
  | fuel + 1, a, b, s, t, negative =>
    if b = 0 then (s, negative) else euclid fuel b (a % b) t (s + a / b * t) (!negative)

protected def inv (a : Residue p) : Residue p :=
  let (factor, negative) := euclid (2 * (p.log2 + 1)) p a.val 0 1 true
  if negative then -ofNat factor else ofNat factor

instance : Inv (Residue p) := ⟨Residue.inv⟩

end Residue

def inverse? {F : Type} [Zero F] [Inv F] [DecidableEq F] (x : F) : Option F :=
  if x = 0 then none else some x⁻¹

end CircuitProof
