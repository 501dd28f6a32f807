import CircuitProof.Circuit.Expression

/-!
# Circuits

A circuit declares signals, each shown to the verifier or hidden from it, and lists the relations
that must hold between them. Both lists keep the order in which they were written, and shown and
hidden declarations may interleave.
-/

namespace CircuitProof

inductive Visibility where
  /-- Part of the statement, known to the verifier. -/
  | shown
  /-- Known only to the prover. -/
  | hidden
  deriving DecidableEq

structure Declaration where
  name : String
  visibility : Visibility
  deriving DecidableEq

structure Circuit (F : Type) where
  name : String
  declarations : List Declaration
  relations : List (Relation F)
  deriving DecidableEq

namespace Circuit

variable {F : Type}

def empty (name : String) : Circuit F := ⟨name, [], []⟩

def declare (c : Circuit F) (name : String) (visibility : Visibility) : Circuit F :=
  { c with declarations := c.declarations ++ [⟨name, visibility⟩] }

def require (c : Circuit F) (relation : Relation F) : Circuit F :=
  { c with relations := c.relations ++ [relation] }

/-- The names declared with one visibility, in declaration order. -/
def names (c : Circuit F) (visibility : Visibility) : List String :=
  (c.declarations.filter (·.visibility = visibility)).map Declaration.name

/-- All declared names in column order, the shown ones first. -/
def inputNames (c : Circuit F) : List String := c.names .shown ++ c.names .hidden

@[simp] theorem names_empty (name : String) (visibility : Visibility) :
    (empty name : Circuit F).names visibility = [] := rfl

@[simp] theorem names_require (c : Circuit F) (relation : Relation F) (visibility : Visibility) :
    (c.require relation).names visibility = c.names visibility := rfl

end Circuit

end CircuitProof
