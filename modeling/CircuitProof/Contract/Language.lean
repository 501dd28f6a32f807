/-!
# A language for contracts

The part of the contract language in which a verifier is written: words of 256 bits with checked
arithmetic, arrays of fixed size, tests that end a call, functions that return one or two values, and
calls of the curve's precompiles. A loop runs over the indices of an array and nothing else, so every
call ends.
-/

namespace CircuitProof

namespace Contract

inductive Term where
  | number (n : Nat)
  | name (x : String)
  | length (array : String)
  | item (array : String) (index : Term)
  | cell (table : String) (row column : Term)
  | add (s t : Term)
  | sub (s t : Term)
  | mod (s t : Term)

inductive Test where
  | equal (s t : Term)
  | less (s t : Term)
  | holds (flag : String)

structure Call where
  routine : String
  arguments : List Term

inductive Precompile where
  | add
  | multiply
  | pairing
  deriving DecidableEq

namespace Precompile

def address : Precompile → Nat
  | add => 6
  | multiply => 7
  | pairing => 8

end Precompile

/-- A statement after which the next one runs, unless it ends the call in failure. -/
inductive Step where
  /-- Fails for the stated reason unless the test holds. -/
  | require (test : Test) (reason : String)
  /-- Declares two words, the results of a call. -/
  | declarePair (x y : String) (call : Call)
  /-- Gives the results of a call to two words that have been declared. -/
  | assignPair (x y : String) (call : Call)
  /-- Declares an array of zeros. -/
  | declareZeros (array : String) (size : Nat)
  /-- Declares an array of the given items. -/
  | declareItems (array : String) (items : List Term)
  | setItem (array : String) (index : Nat) (value : Term)
  /-- Declares a truth value that is false. -/
  | declareFlag (flag : String)
  /-- Calls a precompile on the bytes of an array and puts the answer into another; the flag tells
  whether the call went well. Sizes are in bytes. -/
  | callPrecompile (flag : String) (precompile : Precompile) (input : String) (inputSize : Nat)
      (output : String) (outputSize : Nat)
  | remark (text : String)
  | blank

inductive Statement where
  | step (s : Step)
  /-- Runs the steps once for each index of an array. -/
  | forEach (index array : String) (body : List Step)
  /-- Returns two words if the test holds. -/
  | returnPairIf (test : Test) (x y : Term)
  | returnPair (x y : Term)
  | returnTest (test : Test)
  /-- Fails for the stated reason. -/
  | revert (reason : String)

inductive Kind where
  | word
  | truth
  /-- An array of words, of any size if none is given. -/
  | words (size : Option Nat)
  | table (rows columns : Nat)
  deriving DecidableEq

/-- Where the heading of a function is broken into lines. -/
inductive Breaks where
  | nowhere
  | parameters
  | modifiers

structure Routine where
  name : String
  parameters : List (Kind × String)
  modifiers : List String
  /-- The results; one may have a name or not. -/
  results : List (Kind × Option String)
  breaks : Breaks
  body : List Statement

structure Code where
  title : String
  name : String
  constants : List (List (String × Nat))
  routines : List Routine

end Contract

end CircuitProof
