import CircuitProof.Field.Residue

/-!
# Linear combinations of columns

A row is a list of columns with coefficients, read against an assignment vector whose column zero
holds the constant one. A combination is a row in canonical form: its columns increase strictly and
no coefficient is zero. Every operation merges equal columns and then drops what has become zero, so
two combinations have the same terms as soon as they have the same coefficients.
-/

namespace CircuitProof

/-- Columns with their coefficients, in any order and with repetitions. -/
abbrev Row (F : Type) := List (Nat × F)

/-- The column of the constant one. -/
def unitColumn : Nat := 0

namespace Row

variable {F : Type}

def columns (row : Row F) : List Nat := row.map Prod.fst

@[simp] theorem columns_nil : columns ([] : Row F) = [] := rfl

@[simp] theorem columns_cons (term : Nat × F) (row : Row F) :
    columns (term :: row) = term.1 :: columns row := rfl

section
variable [Zero F] [Add F] [Mul F]

/-- The inner product of a row and an assignment, absent when a column lies outside it. -/
def eval? : Row F → List F → Option F
  | [], _ => some 0
  | (column, coefficient) :: rest, z => do
    let value ← z[column]?
    let sum ← eval? rest z
    some (coefficient * value + sum)

/-- The inner product of a row and an assignment that gives every column a value. -/
def eval (row : Row F) (z : Nat → F) : F :=
  row.foldr (fun term sum => term.2 * z term.1 + sum) 0

@[simp] theorem eval?_nil (z : List F) : eval? [] z = some 0 := rfl

@[simp] theorem eval_nil (z : Nat → F) : eval [] z = 0 := rfl

@[simp] theorem eval_cons (column : Nat) (coefficient : F) (row : Row F) (z : Nat → F) :
    eval ((column, coefficient) :: row) z = coefficient * z column + eval row z := rfl

/-- Where every column has a value, the two inner products agree. -/
theorem eval?_eq_some {row : Row F} {z : List F} {value : Nat → F}
    (h : ∀ term ∈ row, z[term.1]? = some (value term.1)) : eval? row z = some (eval row value) := by
  induction row with
  | nil => rfl
  | cons term rest ih =>
    obtain ⟨column, coefficient⟩ := term
    have hhead := h (column, coefficient) List.mem_cons_self
    have htail := ih fun term hterm => h term (List.mem_cons_of_mem _ hterm)
    simp [eval?, hhead, htail]

end

/-- Adds one term to a row whose columns increase strictly, and keeps them so. -/
def insert [Add F] (column : Nat) (coefficient : F) : Row F → Row F
  | [] => [(column, coefficient)]
  | (c, k) :: rest =>
    if column < c then (column, coefficient) :: (c, k) :: rest
    else if column = c then (c, k + coefficient) :: rest
    else (c, k) :: insert column coefficient rest

/-- The row with its terms sorted, merged and freed of zeros. -/
def canonical [Zero F] [Add F] [DecidableEq F] (row : Row F) : Row F :=
  (row.foldl (fun acc term => insert term.1 term.2 acc) []).filter fun term => term.2 ≠ 0

end Row

structure Combination (F : Type) where
  terms : Row F
  deriving DecidableEq

namespace Combination

variable {F : Type}

instance : Zero (Combination F) := ⟨⟨[]⟩⟩

@[simp] theorem terms_zero : (0 : Combination F).terms = [] := rfl

def column [One F] (index : Nat) : Combination F := ⟨[(index, 1)]⟩

@[simp] theorem terms_column [One F] (index : Nat) :
    (column index : Combination F).terms = [(index, 1)] := rfl

/-- The value of a combination that mentions no column but the constant one. -/
def asConstant? [Zero F] (a : Combination F) : Option F :=
  match a.terms with
  | [] => some 0
  | [(column, value)] => if column = unitColumn then some value else none
  | _ => none

section
variable [Zero F] [Add F] [DecidableEq F]

def ofRow (row : Row F) : Combination F := ⟨row.canonical⟩

@[simp] theorem terms_ofRow (row : Row F) : (ofRow row).terms = row.canonical := rfl

def constant (value : F) : Combination F := ofRow [(unitColumn, value)]

instance : Add (Combination F) := ⟨fun a b => ofRow (a.terms ++ b.terms)⟩

theorem add_def (a b : Combination F) : a + b = ofRow (a.terms ++ b.terms) := rfl

end

section
variable [Zero F] [One F] [Add F] [Neg F] [Mul F] [DecidableEq F]

def scale (factor : F) (a : Combination F) : Combination F :=
  ofRow (a.terms.map fun term => (term.1, term.2 * factor))

instance : Neg (Combination F) := ⟨fun a => a.scale (-1)⟩
instance : Sub (Combination F) := ⟨fun a b => a + -b⟩

theorem neg_def (a : Combination F) : -a = a.scale (-1) := rfl

theorem sub_def (a b : Combination F) : a - b = a + -b := rfl

end

end Combination

/-! ## Sparse matrices

One row of terms per constraint. The stated width is data of its own: nothing here keeps the columns
of the rows below it, and whoever needs that checks `columnsBelow`.
-/

structure Matrix (F : Type) where
  rows : List (Row F)
  width : Nat
  deriving DecidableEq

namespace Matrix

variable {F : Type}

def height (m : Matrix F) : Nat := m.rows.length

def columnsBelow (m : Matrix F) (bound : Nat) : Bool :=
  m.rows.all fun row => row.all fun term => term.1 < bound

/-- The first term whose column reaches the bound, with the index of its row. -/
def firstColumnFrom (m : Matrix F) (bound : Nat) : Option (Nat × Nat) :=
  m.rows.zipIdx.findSome? fun (row, index) =>
    (row.find? fun term => bound ≤ term.1).map fun term => (index, term.1)

def mulVector? [Zero F] [Add F] [Mul F] (m : Matrix F) (z : List F) : Option (List F) :=
  m.rows.mapM fun row => row.eval? z

end Matrix

end CircuitProof
