import CircuitProof.Proofs.Circuit.Unconstrained

/-!
# Relations compile independently

The compiler lowers one relation after the other, and all that it hands on from one to the next is
the number of columns that have been taken. Lowered behind other relations, a relation therefore
comes to the same rows and gates with its auxiliary columns further on. So relations compile
together exactly if they compile apart, and the systems are then put one behind the other.
-/

namespace CircuitProof

theorem toOption_eq_some_iff {ε α : Type} {x : Except ε α} {a : α} :
    x.toOption = some a ↔ x = .ok a := by
  cases x <;> simp [Except.toOption]

variable {F : Type}

/-! ## Renaming the columns of a block -/

def Side.rename (f : Nat → Nat) : Side F → Side F
  | linear c => .linear (c.rename f)
  | factors a b => .factors (a.rename f) (b.rename f)

def Constraint.rename (f : Nat → Nat) (constraint : Constraint F) : Constraint F :=
  ⟨constraint.a.rename f, constraint.b.rename f, constraint.c.rename f⟩

def Block.rename (f : Nat → Nat) (block : Block F) : Block F :=
  ⟨block.gates.map (Gate.rename f), block.constraint.rename f⟩

theorem Gate.constraint_rename [One F] (f : Nat → Nat) (gate : Gate F) :
    (gate.rename f).constraint = gate.constraint.rename f := by
  cases gate <;> rfl

theorem Block.constraints_rename [One F] (f : Nat → Nat) (block : Block F) :
    (block.rename f).constraints = block.constraints.map (Constraint.rename f) := by
  simp only [constraints, rename, List.map_append, List.map_map, List.map_singleton,
    Function.comp_def, Gate.constraint_rename]

theorem Block.flatMap_constraints_rename [One F] (f : Nat → Nat) (blocks : List (Block F)) :
    (blocks.map (Block.rename f)).flatMap Block.constraints =
      (blocks.flatMap Block.constraints).map (Constraint.rename f) := by
  simp only [List.flatMap_map, List.map_flatMap, constraints_rename]

theorem Block.flatMap_gates_rename (f : Nat → Nat) (blocks : List (Block F)) :
    (blocks.map (Block.rename f)).flatMap Block.gates =
      (blocks.flatMap Block.gates).map (Gate.rename f) := by
  simp only [List.flatMap_map, List.map_flatMap]
  rfl

/-! ## Relations lowered elsewhere -/

variable [Field F] [DecidableEq F] {columnOf : String → Option Nat} {base : Nat}

open Emitter (RelocatesTo)

/-- Lowering looks at no column behind the inputs by its number. -/
theorem Expression.lowerSide_relocatesTo (hfree : FreeFrom columnOf base) (k : Nat)
    (e : Expression F) :
    RelocatesTo base k (Side.rename (relocate base k)) (e.lowerSide columnOf)
      (e.lowerSide columnOf) := by
  cases e with
  | mul left right =>
    refine (lower_relocatesTo hfree k left).bind fun a =>
      (lower_relocatesTo hfree k right).bind fun b => ?_
    have hmono := strictMono_relocate base k
    have hfixed : relocate base k unitColumn = unitColumn := relocate_of_lt hfree.unit
    rw [Combination.asConstant?_rename hmono hfixed, Combination.asConstant?_rename hmono hfixed]
    split
    · exact Emitter.relocatesTo_pure rfl
    · exact (Combination.lowerMul_relocatesTo hfree.unit k a b).bind fun c =>
        Emitter.relocatesTo_pure rfl
  | _ => exact (lower_relocatesTo hfree k _).bind fun c => Emitter.relocatesTo_pure rfl

theorem Side.equate_relocatesTo (hunit : unitColumn < base) (k : Nat) (left right : Side F) :
    RelocatesTo base k (Constraint.rename (relocate base k)) (left.equate right)
      ((left.rename (relocate base k)).equate (right.rename (relocate base k))) := by
  have hmono := strictMono_relocate base k
  have hfixed : relocate base k unitColumn = unitColumn := relocate_of_lt hunit
  cases left with
  | linear l =>
    cases right with
    | linear r =>
      refine Emitter.relocatesTo_pure ?_
      rw [Constraint.rename, Combination.rename_sub hmono, Combination.rename_constant hmono hfixed]
      rfl
    | factors x y => exact Emitter.relocatesTo_pure rfl
  | factors a b =>
    cases right with
    | linear r => exact Emitter.relocatesTo_pure rfl
    | factors x y =>
      exact (Combination.lowerMul_relocatesTo hunit k x y).bind fun c =>
        Emitter.relocatesTo_pure rfl

/-- Lowered further on, a relation takes the columns further on and is otherwise the same. -/
theorem Relation.lower_relocatesTo (hfree : Expression.FreeFrom columnOf base) (k : Nat)
    (relation : Relation F) :
    RelocatesTo base k (Constraint.rename (relocate base k)) (relation.lower columnOf)
      (relation.lower columnOf) := by
  cases relation with
  | equal left right =>
    exact (Expression.lowerSide_relocatesTo hfree k left).bind fun l =>
      (Expression.lowerSide_relocatesTo hfree k right).bind fun r =>
        Side.equate_relocatesTo hfree.unit k l r
  | product a b c =>
    exact (Expression.lower_relocatesTo hfree k a).bind fun _ =>
      (Expression.lower_relocatesTo hfree k b).bind fun _ =>
        (Expression.lower_relocatesTo hfree k c).bind fun _ => Emitter.relocatesTo_pure rfl

/-! What a list of relations is lowered to, if it is not refused, does not depend on the index of the
first relation, which only errors carry. -/

theorem toOption_lowerRelations_cons (next index : Nat) (relation : Relation F)
    (rest : List (Relation F)) :
    (lowerRelations columnOf next index (relation :: rest)).toOption =
      (relation.lower columnOf next).toOption.bind fun result =>
        (lowerRelations columnOf (next + result.2.length) (index + 1) rest).toOption.map
          (⟨result.2, result.1⟩ :: ·) := by
  rw [lowerRelations]
  cases relation.lower columnOf next with
  | error e => rfl
  | ok result =>
    obtain ⟨constraint, gates⟩ := result
    simp only [Except.toOption, Option.bind_some]
    cases lowerRelations columnOf (next + gates.length) (index + 1) rest <;> rfl

/-- Further on, relations are lowered to the same blocks with their columns further on, or refused
again. -/
theorem toOption_lowerRelations_relocate (hfree : Expression.FreeFrom columnOf base) (k : Nat)
    {next : Nat} (hle : base ≤ next) (index index' : Nat) (relations : List (Relation F)) :
    (lowerRelations columnOf (next + k) index' relations).toOption =
      (lowerRelations columnOf next index relations).toOption.map
        (List.map (Block.rename (relocate base k))) := by
  induction relations generalizing next index index' with
  | nil => rfl
  | cons relation rest ih =>
    rw [toOption_lowerRelations_cons, toOption_lowerRelations_cons,
      Relation.lower_relocatesTo hfree k relation next hle]
    cases relation.lower columnOf next with
    | error e => rfl
    | ok result =>
      obtain ⟨constraint, gates⟩ := result
      have hrest := ih (Nat.le_add_right_of_le (k := gates.length) hle) (index + 1) (index' + 1)
      simp only [Except.map, Except.toOption, Option.bind_some, List.length_map] at hrest ⊢
      rw [show next + k + gates.length = next + gates.length + k by omega, hrest, Option.map_map,
        Option.map_map]
      rfl

/-- The second relations are lowered behind the columns that the first ones took. -/
theorem toOption_lowerRelations_append (next index : Nat) (first second : List (Relation F)) :
    (lowerRelations columnOf next index (first ++ second)).toOption =
      (lowerRelations columnOf next index first).toOption.bind fun before =>
        (lowerRelations columnOf (next + (before.flatMap Block.gates).length)
          (index + first.length) second).toOption.map (before ++ ·) := by
  induction first generalizing next index with
  | nil => simp [lowerRelations, Except.toOption]
  | cons relation rest ih =>
    rw [List.cons_append, toOption_lowerRelations_cons, toOption_lowerRelations_cons,
      Option.bind_assoc]
    refine Option.bind_congr fun result _ => ?_
    rw [ih, Option.map_bind, Option.bind_map]
    refine Option.bind_congr fun before _ => ?_
    simp only [Function.comp_apply, List.flatMap_cons, List.length_append, List.length_cons,
      Option.map_map]
    rw [Nat.add_assoc next, show index + 1 + rest.length = index + (rest.length + 1) by omega]
    rfl

/-- Relations that are lowered from the same column on, one after the other: the blocks of the
second ones move behind the columns of the first ones. -/
theorem lowerRelations_append_eq_ok_iff (hfree : Expression.FreeFrom columnOf base)
    {first second : List (Relation F)} {blocks : List (Block F)} :
    lowerRelations columnOf base 0 (first ++ second) = .ok blocks ↔
      ∃ before after, lowerRelations columnOf base 0 first = .ok before ∧
        lowerRelations columnOf base 0 second = .ok after ∧
        blocks = before ++
          after.map (Block.rename (relocate base (before.flatMap Block.gates).length)) := by
  rw [← toOption_eq_some_iff, toOption_lowerRelations_append, Option.bind_eq_some_iff]
  refine exists_congr fun before => ?_
  rw [toOption_lowerRelations_relocate hfree _ (Nat.le_refl base) 0, Option.map_map,
    Option.map_eq_some_iff, toOption_eq_some_iff]
  simp only [toOption_eq_some_iff, Function.comp_apply, eq_comm (b := blocks), exists_and_left]

/-! ## Systems put one behind the other -/

namespace ConstraintSystem

omit [Field F] [DecidableEq F] in
/-- The column of the second system once the first one stands before it: auxiliary columns move up
by as many as the first system has, all others stay. -/
def columnBehind (first second : ConstraintSystem F) (column : Nat) : Nat :=
  if second.roleOf column = .auxiliary then column + first.numAuxiliary else column

omit [Field F] [DecidableEq F] in
/-- The inputs of both systems are the same columns, so only auxiliary columns move. -/
theorem columnBehind_eq (first second : ConstraintSystem F) : first.columnBehind second =
    relocate (second.numStatement + second.numHidden) first.numAuxiliary := by
  funext column
  have hrole : second.roleOf column = .auxiliary ↔
      ¬ column < second.numStatement + second.numHidden := by
    unfold roleOf numStatement unitColumn
    split
    · simp; omega
    · split
      · simp; omega
      · split
        · simp; omega
        · simp; omega
  simp only [columnBehind, relocate, hrole, ite_not]

/-- The system consists of the first one, which stands for the given number of relations, and the
second one behind it. -/
structure Joins (first second s : ConstraintSystem F) (numRelations : Nat) : Prop where
  a : s.a.rows = first.a.rows ++ second.a.rows.map (Row.rename (first.columnBehind second))
  b : s.b.rows = first.b.rows ++ second.b.rows.map (Row.rename (first.columnBehind second))
  c : s.c.rows = first.c.rows ++ second.c.rows.map (Row.rename (first.columnBehind second))
  gates : s.gates = first.gates ++ second.gates.map (Gate.rename (first.columnBehind second))
  numAuxiliary : s.numAuxiliary = first.numAuxiliary + second.numAuxiliary
  relationOfRow : s.relationOfRow =
    first.relationOfRow ++ second.relationOfRow.map (· + numRelations)

end ConstraintSystem

namespace Circuit

variable {c : Circuit F}

omit [DecidableEq F] in
theorem labels_add (index k : Nat) (blocks : List (Block F)) :
    labels (index + k) blocks = (labels index blocks).map (· + k) := by
  induction blocks generalizing index with
  | nil => rfl
  | cons block rest ih =>
    rw [labels_cons, labels_cons, List.map_append, List.map_replicate, ← ih, Nat.add_right_comm]

omit [DecidableEq F] in
theorem labels_rename (f : Nat → Nat) (index : Nat) (blocks : List (Block F)) :
    labels index (blocks.map (Block.rename f)) = labels index blocks := by
  induction blocks generalizing index with
  | nil => rfl
  | cons block rest ih =>
    rw [List.map_cons, labels_cons, labels_cons, ih, Block.constraints_rename, List.length_map]

def withRelations (c : Circuit F) (relations : List (Relation F)) : Circuit F :=
  { c with relations := relations }

/-- Where unmentioned signals are ignored, different names and relations that can be lowered are
enough. -/
theorem compile_ignore_eq_ok_iff {s : ConstraintSystem F} :
    c.compile .ignore = .ok s ↔ c.inputNames.Nodup ∧ ∃ blocks, c.Compiled s blocks := by
  constructor
  · intro h
    exact ⟨nodup_of_compile h, compiled_of_compile h⟩
  · rintro ⟨hnodup, blocks, h⟩
    exact (h.compile_eq hnodup).1

/-- The columns of signals depend on the declarations only. -/
theorem compile_withRelations_eq_ok_iff {relations : List (Relation F)} {s : ConstraintSystem F} :
    (c.withRelations relations).compile .ignore = .ok s ↔ c.inputNames.Nodup ∧
      ∃ blocks, lowerRelations c.columnOf (1 + c.inputNames.length) 0 relations = .ok blocks ∧
        s = c.systemOf blocks := by
  rw [compile_ignore_eq_ok_iff]
  refine and_congr_right fun _ => exists_congr fun blocks => ?_
  exact ⟨fun h => ⟨h.lowered, h.system_eq⟩, fun h => ⟨h.1, h.2⟩⟩

omit [DecidableEq F] in
/-- The system of the blocks of two lists of relations, the second ones moved. -/
theorem joins_systemOf (before after : List (Block F)) :
    (c.systemOf before).Joins (c.systemOf after)
      (c.systemOf (before ++ after.map (Block.rename
        (relocate (1 + c.inputNames.length) (before.flatMap Block.gates).length)))) before.length := by
  have hbehind : (c.systemOf before).columnBehind (c.systemOf after) =
      relocate (1 + c.inputNames.length) (before.flatMap Block.gates).length := by
    rw [ConstraintSystem.columnBehind_eq, length_inputNames, ← Nat.add_assoc]
    rfl
  rw [← hbehind]
  constructor
  case gates =>
    simp only [systemOf, List.flatMap_append, Block.flatMap_gates_rename]
  case numAuxiliary =>
    simp only [systemOf, List.flatMap_append, Block.flatMap_gates_rename, List.length_append,
      List.length_map]
  case relationOfRow =>
    change labels 0 _ = labels 0 before ++ (labels 0 after).map (· + before.length)
    rw [labels_append, labels_rename, labels_add]
  all_goals
    simp only [systemOf, List.flatMap_append, Block.flatMap_constraints_rename, List.map_append,
      List.map_map]
    rfl

/-- Relations compile independently. Under the lenient policy two lists of relations compile
together exactly if each compiles by itself, and then the joint system is that of the first list and
behind it that of the second, whose auxiliary columns move up and whose relations are counted on. -/
theorem compile_append (c : Circuit F) (first second : List (Relation F)) :
    ((∃ s, (c.withRelations (first ++ second)).compile .ignore = .ok s) ↔
      (∃ s, (c.withRelations first).compile .ignore = .ok s) ∧
        ∃ s, (c.withRelations second).compile .ignore = .ok s) ∧
    ∀ s₁ s₂ s, (c.withRelations first).compile .ignore = .ok s₁ →
      (c.withRelations second).compile .ignore = .ok s₂ →
      (c.withRelations (first ++ second)).compile .ignore = .ok s → s₁.Joins s₂ s first.length := by
  simp only [compile_withRelations_eq_ok_iff, lowerRelations_append_eq_ok_iff (freeFrom_inputs c)]
  constructor
  · constructor
    · rintro ⟨s, hnodup, _, ⟨before, after, hbefore, hafter, -⟩, -⟩
      exact ⟨⟨_, hnodup, before, hbefore, rfl⟩, ⟨_, hnodup, after, hafter, rfl⟩⟩
    · rintro ⟨⟨-, hnodup, before, hbefore, -⟩, ⟨-, -, after, hafter, -⟩⟩
      exact ⟨_, hnodup, _, ⟨before, after, hbefore, hafter, rfl⟩, rfl⟩
  · rintro s₁ s₂ s ⟨-, before, hbefore, rfl⟩ ⟨-, after, hafter, rfl⟩
      ⟨-, blocks, ⟨before', after', hbefore', hafter', rfl⟩, rfl⟩
    obtain rfl : before = before' := Except.ok.inj (hbefore.symm.trans hbefore')
    obtain rfl : after = after' := Except.ok.inj (hafter.symm.trans hafter')
    rw [← length_lowerRelations hbefore]
    exact joins_systemOf before after

theorem compile_append_cubic :
    ∃ s₁ s, (cubic : Circuit Scalar).compile .ignore = .ok s₁ ∧
      ((cubic : Circuit Scalar).withRelations (cubic.relations ++ cubic.relations)).compile .ignore =
        .ok s ∧ s₁.numAuxiliary = 2 ∧ s₁.Joins s₁ s 1 := by
  obtain ⟨s₁, hs₁, haux⟩ : ∃ s₁, (cubic : Circuit Scalar).compile .ignore = .ok s₁ ∧
      s₁.numAuxiliary = 2 := ⟨_, rfl, by decide +kernel⟩
  obtain ⟨hcompiles, hjoins⟩ :=
    compile_append (cubic : Circuit Scalar) cubic.relations cubic.relations
  obtain ⟨s, hs⟩ := hcompiles.mpr ⟨⟨s₁, hs₁⟩, s₁, hs₁⟩
  exact ⟨s₁, s, hs₁, hs, haux, hjoins s₁ s₁ s hs₁ hs₁ hs⟩

end Circuit

end CircuitProof
