import CircuitProof.Circuit.Basic
import CircuitProof.Field.Word

/-!
# Sample circuits

A sum, a cubic equation, and a chain of squarings whose length is a parameter, together with the
values that satisfy the chain.
-/

namespace CircuitProof

namespace Circuit

variable {F : Type}

def sum : Circuit F where
  name := "sum"
  declarations := [⟨"A", .shown⟩, ⟨"B", .hidden⟩, ⟨"Sum", .shown⟩]
  relations := [.equal (.add (.signal "A") (.signal "B")) (.signal "Sum")]

/-- Knowledge of `x` with `x³ + x + 5 = out`. -/
def cubic [NatCast F] : Circuit F where
  name := "cubic"
  declarations := [⟨"x", .hidden⟩, ⟨"out", .shown⟩]
  relations :=
    let x := .signal "x"
    [.equal (.add (.add (.mul (.mul x x) x) x) (.constant ((5 : Nat) : F))) (.signal "out")]

def chainSignal (rounds i : Nat) : Declaration :=
  if i = 0 then ⟨"start", .shown⟩
  else if i = rounds then ⟨"end", .shown⟩
  else ⟨"x" ++ decimal i, .hidden⟩

/-- `xᵢ₊₁ = xᵢ² + i`, repeated; only the start and the end are shown. -/
def squareChain [NatCast F] (rounds : Nat) : Circuit F where
  name := "square-chain-" ++ decimal rounds
  declarations := (List.range (rounds + 1)).map (chainSignal rounds)
  relations := (List.range rounds).map fun i =>
    let current := .signal (chainSignal rounds i).name
    let next := .signal (chainSignal rounds (i + 1)).name
    .equal (.mul current current) (.sub next (.constant ((i : Nat) : F)))

end Circuit

section
variable {F : Type} [Add F] [Mul F] [NatCast F]

/-- The values after each of the rounds that are left, of which the first has index `i`. -/
def chainFrom (current : F) (i : Nat) : Nat → List F
  | 0 => []
  | left + 1 =>
    let next := current * current + ((i : Nat) : F)
    next :: chainFrom next (i + 1) left

/-- The hidden values of a chain and its end; without rounds the end is the start. -/
def squareChainValues (start : F) (rounds : Nat) : List F × F :=
  let values := chainFrom start 0 rounds
  (values.dropLast, values.getLastD start)

end

end CircuitProof
