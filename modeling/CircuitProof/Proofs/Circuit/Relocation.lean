import CircuitProof.Proofs.Circuit.Lowering

/-!
# Lowering elsewhere

Renaming columns by a strictly increasing map keeps rows sorted and merged, so it commutes with all
operations on combinations. Lowering an expression a number of columns further on therefore yields
the same gates and the same combination, with the columns that it took moved by that number. Above
all, whether an expression folds to a constant, and to which, does not depend on the place.
-/

namespace CircuitProof

variable {F : Type}

/-! ## Renaming columns -/

namespace Row

def rename (f : Nat → Nat) (row : Row F) : Row F := row.map fun term => (f term.1, term.2)

variable {f : Nat → Nat}

theorem insert_rename [Add F] (hf : StrictMono f) (column : Nat) (coefficient : F) (row : Row F) :
    insert (f column) coefficient (row.rename f) = rename f (insert column coefficient row) := by
  induction row with
  | nil => rfl
  | cons term rest ih =>
    have ih : insert (f column) coefficient (List.map (fun term => (f term.1, term.2)) rest) =
        rename f (insert column coefficient rest) := ih
    simp only [rename, List.map_cons, insert, hf.lt_iff_lt, hf.injective.eq_iff]
    split
    · rfl
    · split
      · rfl
      · rw [ih, List.map_cons, rename]

theorem foldl_insert_rename [Add F] (hf : StrictMono f) (row acc : Row F) :
    (row.rename f).foldl (fun acc term => insert term.1 term.2 acc) (acc.rename f) =
      rename f (row.foldl (fun acc term => insert term.1 term.2 acc) acc) := by
  induction row generalizing acc with
  | nil => rfl
  | cons term rest ih =>
    rw [List.foldl_cons, ← ih, ← insert_rename hf]
    rfl

/-- A renaming that keeps the order of columns keeps the order of terms. -/
theorem canonical_rename [Zero F] [Add F] [DecidableEq F] (hf : StrictMono f) (row : Row F) :
    (row.rename f).canonical = row.canonical.rename f := by
  have hfold := foldl_insert_rename hf row []
  rw [canonical, canonical, show ([] : Row F) = rename f [] from rfl, hfold, rename, rename,
    List.filter_map]
  rfl

end Row

namespace Combination

def rename (f : Nat → Nat) (a : Combination F) : Combination F := ⟨a.terms.rename f⟩

variable {f : Nat → Nat}

theorem rename_column [One F] (column : Nat) :
    (Combination.column column : Combination F).rename f = .column (f column) := rfl

/-- Whether a combination is constant does not depend on where auxiliary columns lie. -/
theorem asConstant?_rename [Zero F] (hf : StrictMono f) (hunit : f unitColumn = unitColumn)
    (a : Combination F) : (a.rename f).asConstant? = a.asConstant? := by
  obtain ⟨terms⟩ := a
  match terms with
  | [] => rfl
  | [(column, value)] =>
    have hcolumn : f column = unitColumn ↔ column = unitColumn := by
      rw [← hf.injective.eq_iff (a := column), hunit]
    simp only [asConstant?, rename, Row.rename, List.map_cons, List.map_nil, hcolumn]
  | _ :: _ :: _ => rfl

section
variable [Zero F] [Add F] [DecidableEq F]

theorem rename_ofRow (hf : StrictMono f) (row : Row F) :
    (ofRow row).rename f = ofRow (row.rename f) :=
  congrArg Combination.mk (Row.canonical_rename hf row).symm

theorem rename_constant (hf : StrictMono f) (hunit : f unitColumn = unitColumn) (value : F) :
    (constant value).rename f = constant value := by
  rw [constant, rename_ofRow hf, Row.rename, List.map_singleton, hunit]

theorem rename_add (hf : StrictMono f) (a b : Combination F) :
    (a + b).rename f = a.rename f + b.rename f := by
  rw [add_def, rename_ofRow hf, Row.rename, List.map_append]
  rfl

variable [Mul F]

theorem rename_scale (hf : StrictMono f) (factor : F) (a : Combination F) :
    (a.scale factor).rename f = (a.rename f).scale factor := by
  rw [scale, rename_ofRow hf, scale]
  simp only [Row.rename, rename, List.map_map]
  rfl

variable [One F] [Neg F]

theorem rename_neg (hf : StrictMono f) (a : Combination F) : (-a).rename f = -a.rename f :=
  rename_scale hf (-1) a

theorem rename_sub (hf : StrictMono f) (a b : Combination F) :
    (a - b).rename f = a.rename f - b.rename f := by
  rw [sub_def, rename_add hf, rename_neg hf, sub_def]

end

end Combination

def Gate.rename (f : Nat → Nat) : Gate F → Gate F
  | product target a b => .product (f target) (a.rename f) (b.rename f)
  | quotient target numerator denominator =>
    .quotient (f target) (numerator.rename f) (denominator.rename f)

/-! ## Moving the free columns -/

/-- Moves the columns from `base` on up by `k`. -/
def relocate (base k column : Nat) : Nat := if column < base then column else column + k

theorem relocate_of_lt {base k column : Nat} (h : column < base) :
    relocate base k column = column := if_pos h

theorem relocate_of_le {base k column : Nat} (h : base ≤ column) :
    relocate base k column = column + k := if_neg (Nat.not_lt.mpr h)

theorem strictMono_relocate (base k : Nat) : StrictMono (relocate base k) := by
  intro a b hab
  unfold relocate
  split <;> split <;> omega

namespace Emitter

variable {α β γ δ : Type} {base k : Nat}

/-- Started `k` columns further on, the second computation does what the first one does, with the
columns from `base` on moved up by `k`. -/
def RelocatesTo (base k : Nat) (move : α → β) (m : Emitter F α) (m' : Emitter F β) : Prop :=
  ∀ next, base ≤ next →
    m' (next + k) = (m next).map fun result =>
      (move result.1, result.2.map (Gate.rename (relocate base k)))

theorem relocatesTo_pure {move : α → β} {a : α} {b : β} (h : move a = b) :
    RelocatesTo base k move (pure a : Emitter F α) (pure b) := by
  rintro next -
  rw [← h]
  rfl

theorem relocatesTo_fail {move : α → β} (e : LoweringError) :
    RelocatesTo base k move (fail e : Emitter F α) (fail e) := fun _ _ => rfl

theorem relocatesTo_emit [One F] {gate gate' : Nat → Gate F}
    (h : ∀ target, base ≤ target → (gate target).rename (relocate base k) = gate' (target + k)) :
    RelocatesTo base k (Combination.rename (relocate base k)) (emit gate) (emit gate') := by
  intro next hle
  simp only [emit_apply, Except.map, List.map_singleton, Combination.rename_column,
    relocate_of_le hle, h next hle]

/-- Computations that are moved one by one are moved together. -/
theorem RelocatesTo.bind {move : α → β} {move' : γ → δ} {m : Emitter F α} {m' : Emitter F β}
    {f : α → Emitter F γ} {f' : β → Emitter F δ} (hm : RelocatesTo base k move m m')
    (hf : ∀ a, RelocatesTo base k move' (f a) (f' (move a))) :
    RelocatesTo base k move' (m >>= f) (m' >>= f') := by
  intro next hle
  have hfirst := hm next hle
  cases hresult : m next with
  | error e =>
    rw [hresult] at hfirst
    rw [bind_of_error hresult, bind_of_error hfirst]
    rfl
  | ok result =>
    obtain ⟨a, gates⟩ := result
    rw [hresult] at hfirst
    have hsecond := hf a (next + gates.length) (Nat.le_add_right_of_le hle)
    rw [bind_of_ok hresult, bind_of_ok hfirst, List.length_map,
      show next + k + gates.length = next + gates.length + k by omega, hsecond]
    cases f a (next + gates.length) with
    | error e => rfl
    | ok result => simp [Except.map]

end Emitter

variable [Field F] [DecidableEq F] {columnOf : String → Option Nat} {base : Nat}

open Emitter (RelocatesTo)

theorem Combination.lowerMul_relocatesTo (hunit : unitColumn < base) (k : Nat)
    (a b : Combination F) :
    RelocatesTo base k (Combination.rename (relocate base k)) (a.lowerMul b)
      ((a.rename (relocate base k)).lowerMul (b.rename (relocate base k))) := by
  have hmono := strictMono_relocate base k
  have hfixed : relocate base k unitColumn = unitColumn := relocate_of_lt hunit
  unfold lowerMul
  rw [asConstant?_rename hmono hfixed, asConstant?_rename hmono hfixed]
  split
  · exact Emitter.relocatesTo_pure (rename_scale hmono _ b)
  · exact Emitter.relocatesTo_pure (rename_scale hmono _ a)
  · refine Emitter.relocatesTo_emit fun target hle => ?_
    rw [Gate.rename, relocate_of_le hle]

/-- The choice between a multiple and a gate is the same after the move. -/
theorem Combination.lowerDiv_relocatesTo (hunit : unitColumn < base) (k : Nat)
    (a b : Combination F) :
    RelocatesTo base k (Combination.rename (relocate base k)) (a.lowerDiv b)
      ((a.rename (relocate base k)).lowerDiv (b.rename (relocate base k))) := by
  have hmono := strictMono_relocate base k
  have hfixed : relocate base k unitColumn = unitColumn := relocate_of_lt hunit
  unfold lowerDiv
  rw [asConstant?_rename hmono hfixed]
  split
  · split
    · exact Emitter.relocatesTo_pure (rename_scale hmono _ a)
    · exact Emitter.relocatesTo_fail _
  · refine Emitter.relocatesTo_emit fun target hle => ?_
    rw [Gate.rename, relocate_of_le hle]

namespace Expression

/-- Lowering two operands and combining the results moves as the three parts do. -/
theorem relocatesTo_operands {left right : Expression F} {k : Nat}
    {combine : Combination F → Combination F → Emitter F (Combination F)}
    (hleft : RelocatesTo base k (Combination.rename (relocate base k)) (left.lower columnOf)
      (left.lower columnOf))
    (hright : RelocatesTo base k (Combination.rename (relocate base k)) (right.lower columnOf)
      (right.lower columnOf))
    (hcombine : ∀ a b, RelocatesTo base k (Combination.rename (relocate base k)) (combine a b)
      (combine (a.rename (relocate base k)) (b.rename (relocate base k)))) :
    RelocatesTo base k (Combination.rename (relocate base k))
      (left.lower columnOf >>= fun a => right.lower columnOf >>= fun b => combine a b)
      (left.lower columnOf >>= fun a => right.lower columnOf >>= fun b => combine a b) :=
  hleft.bind fun a => hright.bind fun b => hcombine a b

/-- Lowered further on, an expression takes the columns further on and is otherwise the same. -/
theorem lower_relocatesTo (hfree : FreeFrom columnOf base) (k : Nat) (e : Expression F) :
    RelocatesTo base k (Combination.rename (relocate base k)) (e.lower columnOf)
      (e.lower columnOf) := by
  have hmono := strictMono_relocate base k
  have hfixed : relocate base k unitColumn = unitColumn := relocate_of_lt hfree.unit
  induction e with
  | signal name =>
    unfold lower
    split
    · next column hcolumn =>
      have hlt := hfree.signals name column hcolumn
      exact Emitter.relocatesTo_pure (by rw [Combination.rename_column, relocate_of_lt hlt])
    · exact Emitter.relocatesTo_fail _
  | constant value =>
    exact Emitter.relocatesTo_pure (Combination.rename_constant hmono hfixed value)
  | neg inner ih =>
    exact ih.bind fun a => Emitter.relocatesTo_pure (Combination.rename_neg hmono a)
  | add left right ihl ihr =>
    exact relocatesTo_operands ihl ihr fun a b =>
      Emitter.relocatesTo_pure (Combination.rename_add hmono a b)
  | sub left right ihl ihr =>
    exact relocatesTo_operands ihl ihr fun a b =>
      Emitter.relocatesTo_pure (Combination.rename_sub hmono a b)
  | mul left right ihl ihr =>
    exact relocatesTo_operands ihl ihr fun a b => Combination.lowerMul_relocatesTo hfree.unit k a b
  | div left right ihl ihr =>
    exact relocatesTo_operands ihl ihr fun a b => Combination.lowerDiv_relocatesTo hfree.unit k a b

/-- The constant to which an expression folds when the columns from `next` on are free. -/
def folded? (columnOf : String → Option Nat) (next : Nat) (e : Expression F) : Option F :=
  match e.lower columnOf next with
  | .ok (a, _) => a.asConstant?
  | .error _ => none

theorem folded?_of_lower {e : Expression F} {next : Nat} {a : Combination F} {gates : List (Gate F)}
    (h : e.lower columnOf next = .ok (a, gates)) : e.folded? columnOf next = a.asConstant? := by
  rw [folded?, h]

/-- An expression folds to the same constant wherever its columns are. -/
theorem folded?_of_le (hfree : FreeFrom columnOf base) {next : Nat} (hle : base ≤ next)
    (e : Expression F) : e.folded? columnOf next = e.folded? columnOf base := by
  obtain ⟨k, rfl⟩ := Nat.exists_eq_add_of_le hle
  unfold folded?
  rw [lower_relocatesTo hfree k e base le_rfl]
  cases e.lower columnOf base with
  | error e => rfl
  | ok result =>
    exact Combination.asConstant?_rename (strictMono_relocate base k) (relocate_of_lt hfree.unit) _

end Expression

end CircuitProof
