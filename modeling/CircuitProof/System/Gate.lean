import CircuitProof.Linear.Combination

/-!
# Gates

A gate gives one auxiliary column its value from columns before it, and stands for the constraint
that ties the column to them. A product gate's constraint determines its column. A quotient gate's
constraint does so only where the denominator is not zero, which is why its value is refused there.
-/

namespace CircuitProof

/-! ## How an operation can fail

A refusal carries its cause. The other two outcomes are kept apart from every cause: an index that
lies outside its vector, and a source of randomness that has run out.
-/

inductive Failure (ε : Type) where
  /-- Refused for a stated cause. -/
  | rejected (cause : ε)
  /-- A row or column index lies outside its vector. -/
  | outOfRange
  /-- The source of randomness has run out. -/
  | exhausted
  deriving DecidableEq

namespace Failure

def reject {ε α : Type} (cause : ε) : Except (Failure ε) α := .error (.rejected cause)

/-- Reads an absent value as an index out of range. -/
def inRange {ε α : Type} : Option α → Except (Failure ε) α
  | some value => .ok value
  | none => .error .outOfRange

variable {ε α : Type}

@[simp] theorem inRange_some (value : α) :
    (inRange (some value) : Except (Failure ε) α) = .ok value := rfl

@[simp] theorem inRange_none : (inRange none : Except (Failure ε) α) = .error .outOfRange := rfl

end Failure

/-! ## Constraints and gates -/

/-- The demand that the product of `a` and `b` be `c`. -/
structure Constraint (F : Type) where
  a : Combination F
  b : Combination F
  c : Combination F
  deriving DecidableEq

inductive Gate (F : Type) where
  | product (target : Nat) (a b : Combination F)
  | quotient (target : Nat) (numerator denominator : Combination F)
  deriving DecidableEq

variable {F : Type}

def Constraint.columns (constraint : Constraint F) : List Nat :=
  constraint.a.terms.columns ++ constraint.b.terms.columns ++ constraint.c.terms.columns

namespace Gate

def target : Gate F → Nat
  | product target _ _ => target
  | quotient target _ _ => target

def constraint [One F] : Gate F → Constraint F
  | product target a b => ⟨a, b, .column target⟩
  | quotient target numerator denominator => ⟨.column target, denominator, numerator⟩

/-- The value of a gate's column; a quotient whose denominator is zero names the column. -/
def value [Zero F] [Add F] [Mul F] [Inv F] [DecidableEq F] {ε : Type} (unsolvable : Nat → ε)
    (gate : Gate F) (z : List F) : Except (Failure ε) F :=
  match gate with
  | product _ a b => do
    let x ← Failure.inRange (a.terms.eval? z)
    let y ← Failure.inRange (b.terms.eval? z)
    .ok (x * y)
  | quotient target numerator denominator => do
    let d ← Failure.inRange (denominator.terms.eval? z)
    match inverse? d with
    | none => Failure.reject (unsolvable target)
    | some inverse =>
      let n ← Failure.inRange (numerator.terms.eval? z)
      .ok (n * inverse)

end Gate

end CircuitProof
