import CircuitProof.Field.Residue

/-!
# Arithmetic expressions over named signals

An expression is kept as written: nothing is folded while it is built. Its value is strict, so a
division by zero anywhere leaves the whole expression without one.
-/

namespace CircuitProof

inductive Expression (F : Type) where
  | signal (name : String)
  | constant (value : F)
  | add (left right : Expression F)
  | sub (left right : Expression F)
  | neg (inner : Expression F)
  | mul (left right : Expression F)
  | div (left right : Expression F)
  deriving DecidableEq

namespace Expression

variable {F : Type}

/-- The names that an expression reads, from left to right and with repetitions. -/
def signals : Expression F → List String
  | signal name => [name]
  | constant _ => []
  | neg inner => inner.signals
  | add left right | sub left right | mul left right | div left right =>
    left.signals ++ right.signals

/-- The value under an environment, absent when some denominator is zero. -/
def value? [Zero F] [Add F] [Sub F] [Neg F] [Mul F] [Inv F] [DecidableEq F]
    (env : String → F) : Expression F → Option F
  | signal name => some (env name)
  | constant value => some value
  | add left right => do some ((← left.value? env) + (← right.value? env))
  | sub left right => do some ((← left.value? env) - (← right.value? env))
  | neg inner => do some (-(← inner.value? env))
  | mul left right => do some ((← left.value? env) * (← right.value? env))
  | div left right => do
    let numerator ← left.value? env
    let denominator ← right.value? env
    some (numerator * (← inverse? denominator))

end Expression

inductive Relation (F : Type) where
  | equal (left right : Expression F)
  /-- The product of the first two is the third. -/
  | product (a b c : Expression F)
  deriving DecidableEq

namespace Relation

variable {F : Type}

def sides : Relation F → List (Expression F)
  | equal left right => [left, right]
  | product a b c => [a, b, c]

def signals (relation : Relation F) : List String := relation.sides.flatMap Expression.signals

/-- Whether every side has a value and the values are related as stated. -/
def Holds [Zero F] [Add F] [Sub F] [Neg F] [Mul F] [Inv F] [DecidableEq F]
    (env : String → F) : Relation F → Prop
  | equal left right => ∃ v, left.value? env = some v ∧ right.value? env = some v
  | product a b c => ∃ x y,
    a.value? env = some x ∧ b.value? env = some y ∧ c.value? env = some (x * y)

end Relation

end CircuitProof
