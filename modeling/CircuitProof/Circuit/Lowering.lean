import CircuitProof.Circuit.Expression
import CircuitProof.System.Gate

/-!
# Lowering expressions to combinations

Linear structure folds into one combination. A product or quotient of two combinations that are not
constant takes a fresh column, the next free one, and leaves a gate behind. Gates come out in the
order of their columns, and each reads only columns that are free before its own.
-/

namespace CircuitProof

inductive LoweringError where
  | undeclared (name : String)
  | divisionByZero
  deriving DecidableEq

/-- A computation that may take fresh columns: given the first free column, it yields a result and
the gates of the columns that it took, in order. -/
def Emitter (F α : Type) : Type := Nat → Except LoweringError (α × List (Gate F))

namespace Emitter

variable {F α β : Type}

/-- The second computation starts after the columns that the first one took. -/
def bind (m : Emitter F α) (f : α → Emitter F β) : Emitter F β := fun next =>
  match m next with
  | .error e => .error e
  | .ok (a, gates) =>
    match f a (next + gates.length) with
    | .error e => .error e
    | .ok (b, more) => .ok (b, gates ++ more)

instance : Monad (Emitter F) where
  pure a := fun _ => .ok (a, [])
  bind := bind

def fail (e : LoweringError) : Emitter F α := fun _ => .error e

/-- Takes the next free column for a gate and reads it back. -/
def emit [One F] (gate : Nat → Gate F) : Emitter F (Combination F) := fun next =>
  .ok (.column next, [gate next])

theorem pure_apply (a : α) (next : Nat) : (pure a : Emitter F α) next = .ok (a, []) := rfl

theorem fail_apply (e : LoweringError) (next : Nat) : (fail e : Emitter F α) next = .error e := rfl

theorem emit_apply [One F] (gate : Nat → Gate F) (next : Nat) :
    emit gate next = .ok (.column next, [gate next]) := rfl

theorem bind_of_ok {m : Emitter F α} {f : α → Emitter F β} {next : Nat} {a : α}
    {gates : List (Gate F)} (h : m next = .ok (a, gates)) :
    (m >>= f) next =
      (f a (next + gates.length)).map fun result => (result.1, gates ++ result.2) := by
  change bind m f next = _
  rw [bind, h]
  cases h' : f a (next + gates.length) <;> simp [h', Except.map]

theorem bind_of_error {m : Emitter F α} {f : α → Emitter F β} {next : Nat} {e : LoweringError}
    (h : m next = .error e) : (m >>= f) next = .error e := by
  change bind m f next = _
  rw [bind, h]

end Emitter

variable {F : Type} [Zero F] [One F] [Add F] [Neg F] [Mul F] [Inv F] [DecidableEq F]

/-- The product of two combinations: a multiple if one is constant, else a fresh column. -/
def Combination.lowerMul (a b : Combination F) : Emitter F (Combination F) :=
  match a.asConstant?, b.asConstant? with
  | some k, _ => pure (b.scale k)
  | none, some k => pure (a.scale k)
  | none, none => .emit fun target => .product target a b

/-- The quotient of two combinations: a multiple if the denominator is constant and not zero, else
a fresh column. -/
def Combination.lowerDiv (numerator denominator : Combination F) : Emitter F (Combination F) :=
  match denominator.asConstant? with
  | some k =>
    match inverse? k with
    | some inverse => pure (numerator.scale inverse)
    | none => .fail .divisionByZero
  | none => .emit fun target => .quotient target numerator denominator

/-- Lowers an expression, operands first and from left to right. -/
def Expression.lower (columnOf : String → Option Nat) :
    Expression F → Emitter F (Combination F)
  | signal name =>
    match columnOf name with
    | some column => pure (.column column)
    | none => .fail (.undeclared name)
  | constant value => pure (.constant value)
  | add left right => do
    let a ← left.lower columnOf
    let b ← right.lower columnOf
    pure (a + b)
  | sub left right => do
    let a ← left.lower columnOf
    let b ← right.lower columnOf
    pure (a - b)
  | neg inner => do
    let a ← inner.lower columnOf
    pure (-a)
  | mul left right => do
    let a ← left.lower columnOf
    let b ← right.lower columnOf
    a.lowerMul b
  | div left right => do
    let a ← left.lower columnOf
    let b ← right.lower columnOf
    a.lowerDiv b

/-- One side of an equation: a combination, or a product kept as two factors. -/
inductive Side (F : Type) where
  | linear (value : Combination F)
  | factors (a b : Combination F)

/-- Lowers a side of an equation. A product of two combinations that are not constant stays
factored, so that the equation itself can be the constraint of the product. -/
def Expression.lowerSide (columnOf : String → Option Nat) : Expression F → Emitter F (Side F)
  | mul left right => do
    let a ← left.lower columnOf
    let b ← right.lower columnOf
    if a.asConstant?.isNone && b.asConstant?.isNone then pure (.factors a b)
    else do
      let c ← a.lowerMul b
      pure (.linear c)
  | e => do
    let c ← e.lower columnOf
    pure (.linear c)

/-- The constraint that equates two sides. Of two products, the right one takes a fresh column. -/
def Side.equate : Side F → Side F → Emitter F (Constraint F)
  | factors a b, linear c => pure ⟨a, b, c⟩
  | linear c, factors a b => pure ⟨a, b, c⟩
  | factors a b, factors x y => do
    let c ← x.lowerMul y
    pure ⟨a, b, c⟩
  | linear l, linear r => pure ⟨l - r, .constant 1, 0⟩

/-- Lowers a relation to its constraint; the gates it needs come before. -/
def Relation.lower (columnOf : String → Option Nat) : Relation F → Emitter F (Constraint F)
  | equal left right => do
    let l ← left.lowerSide columnOf
    let r ← right.lowerSide columnOf
    l.equate r
  | product a b c => do
    let a ← a.lower columnOf
    let b ← b.lower columnOf
    let c ← c.lower columnOf
    pure ⟨a, b, c⟩

end CircuitProof
