import CircuitProof.Circuit.Compile
import CircuitProof.Proofs.Circuit.Allocation

/-!
# Compiled systems

A compiled system consists of the blocks of its circuit's relations. Its gates are placed behind the
inputs, its rows mention existing columns only, and its rows are the constraints of the blocks in
order, so the first row that fails, where all gates are solved, is the last row of its block.
-/

namespace CircuitProof

variable {F : Type} [Field F] [DecidableEq F] {columnOf : String → Option Nat}

theorem lowerRelations_cons {relation : Relation F} {rest : List (Relation F)} {next index : Nat}
    {blocks : List (Block F)}
    (h : lowerRelations columnOf next index (relation :: rest) = .ok blocks) :
    ∃ constraint gates more, relation.lower columnOf next = .ok (constraint, gates) ∧
      lowerRelations columnOf (next + gates.length) (index + 1) rest = .ok more ∧
      blocks = ⟨gates, constraint⟩ :: more := by
  cases hlower : relation.lower columnOf next with
  | error e =>
    simp only [lowerRelations, hlower] at h
    cases h
  | ok result =>
    obtain ⟨constraint, gates⟩ := result
    cases hrest : lowerRelations columnOf (next + gates.length) (index + 1) rest with
    | error e =>
      simp only [lowerRelations, hlower, hrest] at h
      cases h
    | ok more =>
      simp only [lowerRelations, hlower, hrest] at h
      cases h
      exact ⟨constraint, gates, more, rfl, hrest, rfl⟩

omit [DecidableEq F] in
theorem Block.mem_constraints {block : Block F} {constraint : Constraint F} :
    constraint ∈ block.constraints ↔
      (∃ gate ∈ block.gates, gate.constraint = constraint) ∨ constraint = block.constraint := by
  simp [Block.constraints]

/-- The gates of the relations take consecutive columns, and no row mentions a later one. -/
theorem lowerRelations_inPlace {relations : List (Relation F)} {next index : Nat}
    {blocks : List (Block F)} (hfree : Expression.FreeFrom columnOf next)
    (h : lowerRelations columnOf next index relations = .ok blocks) :
    Gate.Placed next (blocks.flatMap Block.gates) ∧
      ∀ block ∈ blocks, block.constraint.Below (next + (blocks.flatMap Block.gates).length) := by
  induction relations generalizing next index blocks with
  | nil =>
    obtain rfl : [] = blocks := by simpa [lowerRelations] using h
    exact ⟨trivial, by simp⟩
  | cons relation rest ih =>
    obtain ⟨constraint, gates, more, hlower, hmore, rfl⟩ := lowerRelations_cons h
    obtain ⟨hbelow, hplaced⟩ := Relation.lower_inPlace hfree hlower
    obtain ⟨hrest, hall⟩ := ih (hfree.later gates) hmore
    rw [List.flatMap_cons, List.length_append, ← Nat.add_assoc]
    refine ⟨Gate.placed_append.mpr ⟨hplaced, hrest⟩, fun block hblock => ?_⟩
    rcases List.mem_cons.mp hblock with rfl | hblock
    · exact hbelow.mono (Nat.le_add_right _ _)
    · exact hall block hblock

/-- The relations, one after the other, are simulated by their blocks. -/
structure SimulatesBlocks (env : String → F) (z : Nat → F) (relations : List (Relation F))
    (sources : List (Expression F)) (blocks : List (Block F)) : Prop where
  traced : Traced env z sources (blocks.flatMap Block.gates)
  value : (∀ gate ∈ blocks.flatMap Block.gates, gate.Solved z) →
    ∀ relation ∈ relations, ∀ e ∈ relation.sides, e.value? env ≠ none
  holds_iff : (∀ gate ∈ blocks.flatMap Block.gates, gate.Solved z) →
    List.Forall₂ (fun relation block => block.constraint.Holds z ↔ relation.Holds env)
      relations blocks

/-- Each relation starts behind the columns that the ones before it took. -/
theorem lowerRelations_simulates {env : String → F} {z : Nat → F} {relations : List (Relation F)}
    {next index : Nat} {blocks : List (Block F)} (hz : Expression.Reflects columnOf env z)
    (h : lowerRelations columnOf next index relations = .ok blocks) :
    SimulatesBlocks env z relations (Relation.allocationsFrom columnOf relations next) blocks := by
  induction relations generalizing next index blocks with
  | nil =>
    obtain rfl : [] = blocks := by simpa [lowerRelations] using h
    exact ⟨trivial, fun _ => by simp, fun _ => .nil⟩
  | cons relation rest ih =>
    obtain ⟨constraint, gates, more, hlower, hmore, rfl⟩ := lowerRelations_cons h
    have hfirst := Relation.lower_simulates hz hlower
    have hrest := ih hmore
    have hsplit : (∀ gate ∈ gates ++ more.flatMap Block.gates, gate.Solved z) →
        (∀ gate ∈ gates, gate.Solved z) ∧ ∀ gate ∈ more.flatMap Block.gates, gate.Solved z :=
      fun hall => ⟨fun gate hgate => hall gate (List.mem_append_left _ hgate),
        fun gate hgate => hall gate (List.mem_append_right _ hgate)⟩
    rw [Relation.allocationsFrom, hfirst.length_eq]
    refine ⟨hfirst.traced.append fun _ => hrest.traced, fun hall => ?_, fun hall => ?_⟩
    · obtain ⟨hown, hothers⟩ := hsplit hall
      intro r hr
      rcases List.mem_cons.mp hr with rfl | hr
      · exact hfirst.value hown
      · exact hrest.value hothers r hr
    · obtain ⟨hown, hothers⟩ := hsplit hall
      exact .cons (hfirst.holds_iff hown) (hrest.holds_iff hothers)

namespace Circuit

variable {c : Circuit F}

def allocations (c : Circuit F) : List (Expression F) :=
  Relation.allocationsFrom c.columnOf c.relations (1 + c.inputNames.length)

theorem mem_denominators_of_mem_allocations {l r : Expression F} (h : .div l r ∈ c.allocations) :
    r ∈ c.denominators := Relation.mem_denominators_of_allocationsFrom h

omit [Field F] [DecidableEq F] in
theorem length_inputNames (c : Circuit F) :
    c.inputNames.length = (c.names .shown).length + (c.names .hidden).length := by
  rw [inputNames, List.length_append]

omit [Field F] [DecidableEq F] in
theorem columnOf_eq_some_iff {name : String} {column : Nat} :
    c.columnOf name = some column ↔ ∃ i, c.inputNames.idxOf? name = some i ∧ i + 1 = column := by
  simp [columnOf]

omit [Field F] [DecidableEq F] in
/-- All signals lie in front of the first auxiliary column. -/
theorem freeFrom_inputs (c : Circuit F) :
    Expression.FreeFrom c.columnOf (1 + c.inputNames.length) := by
  refine ⟨by simp [unitColumn], fun name column h => ?_⟩
  obtain ⟨i, hi, rfl⟩ := columnOf_eq_some_iff.mp h
  have hlt : i < c.inputNames.length := by
    obtain ⟨hlt, -⟩ := List.idxOf?_eq_some_iff.mp hi
    exact hlt
  omega

omit [DecidableEq F] in
/-- The input columns hold the values of the signals that the circuit declares. -/
theorem reflects_environment {shown hidden : List F}
    (hlength : (shown ++ hidden).length = c.inputNames.length) (aux : List F) :
    Expression.Reflects c.columnOf (c.environment shown hidden)
      (valueAt (1 :: (shown ++ hidden) ++ aux)) := by
  refine ⟨by simp [valueAt, unitColumn], fun name column h => ?_⟩
  obtain ⟨i, hi, rfl⟩ := columnOf_eq_some_iff.mp h
  have hlt : i < (shown ++ hidden).length := by
    obtain ⟨hlt, -⟩ := List.idxOf?_eq_some_iff.mp hi
    omega
  rw [environment, lookup_zip_of_idxOf? hi hlength.symm, valueAt, List.cons_append,
    List.getElem?_cons_succ, List.getElem?_append_left hlt]

/-- The system is made of the blocks of the circuit's relations. -/
structure Compiled (c : Circuit F) (s : ConstraintSystem F) (blocks : List (Block F)) : Prop where
  lowered : lowerRelations c.columnOf (1 + c.inputNames.length) 0 c.relations = .ok blocks
  system_eq : s = c.systemOf blocks

/-- What every later lemma on a compiled system starts from. -/
theorem compiled_of_compile {policy : UnconstrainedPolicy} {s : ConstraintSystem F}
    (h : c.compile policy = .ok s) : ∃ blocks, c.Compiled s blocks := by
  cases hrepeated : firstRepeated? c.inputNames with
  | some name =>
    simp only [compile, hrepeated] at h
    cases h
  | none =>
    cases hlower : lowerRelations c.columnOf (1 + c.inputNames.length) 0 c.relations with
    | error e =>
      simp only [compile, hrepeated, hlower] at h
      cases h
    | ok blocks =>
      simp only [compile, hrepeated, hlower] at h
      refine ⟨blocks, hlower, ?_⟩
      split at h
      · cases h
      · exact (Except.ok.inj h).symm

/-! ## Rows -/

/-- For each row of the blocks the index of its relation, the first one having the given index. -/
def labels (index : Nat) (blocks : List (Block F)) : List Nat :=
  (blocks.zipIdx index).flatMap fun (block, i) => List.replicate block.constraints.length i

omit [DecidableEq F] in
theorem labels_cons (index : Nat) (block : Block F) (rest : List (Block F)) :
    labels index (block :: rest) =
      List.replicate block.constraints.length index ++ labels (index + 1) rest := by
  simp [labels]

omit [DecidableEq F] in
theorem labels_append (index : Nat) (before after : List (Block F)) :
    labels index (before ++ after) =
      labels index before ++ labels (index + before.length) after := by
  induction before generalizing index with
  | nil => simp [labels]
  | cons block rest ih =>
    rw [List.cons_append, labels_cons, labels_cons, ih, List.append_assoc, List.length_cons,
      show index + 1 + rest.length = index + (rest.length + 1) by omega]

omit [DecidableEq F] in
theorem length_labels (index : Nat) (blocks : List (Block F)) :
    (labels index blocks).length = (blocks.flatMap Block.constraints).length := by
  induction blocks generalizing index with
  | nil => rfl
  | cons block rest ih =>
    rw [labels_cons, List.length_append, List.length_replicate, ih, List.flatMap_cons,
      List.length_append]

omit [DecidableEq F] in
theorem le_of_mem_labels {index i : Nat} {blocks : List (Block F)} (h : i ∈ labels index blocks) :
    index ≤ i := by
  induction blocks generalizing index with
  | nil => simp [labels] at h
  | cons block rest ih =>
    rw [labels_cons] at h
    rcases List.mem_append.mp h with h | h
    · exact Nat.le_of_eq (List.eq_of_mem_replicate h).symm
    · have hle := ih h
      omega

omit [DecidableEq F] in
theorem Block.length_constraints (block : Block F) :
    block.constraints.length = block.gates.length + 1 := by
  simp [Block.constraints]

omit [DecidableEq F] in
/-- The last row of a block is the last one that stands for its relation. -/
theorem lastAt_labels (before : List (Block F)) (block : Block F) (after : List (Block F)) :
    LastAt (· = before.length) (labels 0 (before ++ block :: after))
      ((before.flatMap Block.constraints).length + block.gates.length) := by
  have hsplit : labels 0 (before ++ block :: after) =
      labels 0 before ++ (List.replicate (block.gates.length + 1) before.length ++
        labels (before.length + 1) after) := by
    rw [labels_append, labels_cons, Block.length_constraints, Nat.zero_add]
  have hbehind : ∀ i, (labels 0 (before ++ block :: after))[
      (before.flatMap Block.constraints).length + i]? =
      (List.replicate (block.gates.length + 1) before.length ++
        labels (before.length + 1) after)[i]? := by
    intro i
    rw [hsplit, List.getElem?_append_right (by rw [length_labels]; omega), length_labels,
      Nat.add_sub_cancel_left]
  refine ⟨⟨before.length, ?_, rfl⟩, fun row hrow label hlabel heq => ?_⟩
  · rw [hbehind, List.getElem?_append_left (by simp)]
    simp
  · obtain ⟨i, rfl⟩ : ∃ i, row = (before.flatMap Block.constraints).length + i :=
      ⟨row - (before.flatMap Block.constraints).length, by omega⟩
    rw [hbehind, List.getElem?_append_right (by rw [List.length_replicate]; omega)] at hlabel
    have hle := le_of_mem_labels (List.mem_of_getElem? hlabel)
    omega

omit [DecidableEq F] in
/-- Where the rows of all gates hold, the first row that fails is the last one of the first block
whose own constraint fails. -/
theorem exists_block_of_firstAt {blocks : List (Block F)} {z : Nat → F} {row : Nat}
    (hgates : ∀ gate ∈ blocks.flatMap Block.gates, gate.constraint.Holds z)
    (h : FirstAt (fun constraint => ¬ constraint.Holds z) (blocks.flatMap Block.constraints) row) :
    ∃ before block after, blocks = before ++ block :: after ∧
      (∀ b ∈ before, b.constraint.Holds z) ∧ ¬ block.constraint.Holds z ∧
      row = (before.flatMap Block.constraints).length + block.gates.length := by
  induction blocks generalizing row with
  | nil =>
    obtain ⟨item, hitem, -⟩ := h.here
    simp at hitem
  | cons block rest ih =>
    rw [List.flatMap_cons] at h
    rcases h.append_cases with hblock | ⟨i, rfl, hholds, hrest⟩
    · rcases hblock.append_cases with hgate | ⟨i, rfl, -, hlast⟩
      · obtain ⟨failed, hget, hfails⟩ := hgate.here
        obtain ⟨gate, hmem, rfl⟩ := List.mem_map.mp (List.mem_of_getElem? hget)
        exact absurd (hgates gate (by simp [hmem])) hfails
      · obtain ⟨failed, hget, hfails⟩ := hlast.here
        obtain ⟨rfl, rfl⟩ : i = 0 ∧ block.constraint = failed := by
          simpa [List.getElem?_singleton] using hget
        exact ⟨[], block, rest, rfl, by simp, hfails, by simp⟩
    · have hgates' : ∀ gate ∈ rest.flatMap Block.gates, gate.constraint.Holds z := by
        intro gate hgate
        exact hgates gate (by rw [List.flatMap_cons]; exact List.mem_append_right _ hgate)
      obtain ⟨before, found, after, rfl, hbefore, hfound, rfl⟩ := ih hgates' hrest
      refine ⟨block :: before, found, after, rfl, ?_, hfound, ?_⟩
      · intro b hb
        rcases List.mem_cons.mp hb with rfl | hb
        · exact not_not.mp (hholds _ (by simp [Block.constraints]))
        · exact hbefore b hb
      · rw [List.flatMap_cons, List.length_append]
        omega

/-! ## The system as a whole -/

namespace Compiled

variable {s : ConstraintSystem F} {blocks : List (Block F)}

theorem gates_eq (h : c.Compiled s blocks) : s.gates = blocks.flatMap Block.gates := by
  rw [h.system_eq, systemOf]

theorem numShown_eq (h : c.Compiled s blocks) : s.numShown = (c.names .shown).length := by
  rw [h.system_eq, systemOf]

theorem numHidden_eq (h : c.Compiled s blocks) : s.numHidden = (c.names .hidden).length := by
  rw [h.system_eq, systemOf]

theorem relationOfRow_eq (h : c.Compiled s blocks) : s.relationOfRow = labels 0 blocks := by
  rw [h.system_eq]
  rfl

theorem numColumns_eq (h : c.Compiled s blocks) :
    s.numColumns = 1 + c.inputNames.length + s.gates.length := by
  have hauxiliary : s.numAuxiliary = s.gates.length := by rw [h.system_eq, systemOf]
  rw [ConstraintSystem.numColumns, h.numShown_eq, h.numHidden_eq, hauxiliary, length_inputNames,
    ← Nat.add_assoc]

theorem numConstraints_eq (h : c.Compiled s blocks) :
    s.numConstraints = (blocks.flatMap Block.constraints).length := by
  rw [h.system_eq, ConstraintSystem.numConstraints, Matrix.height, systemOf, List.length_map]

theorem placed (h : c.Compiled s blocks) : Gate.Placed (1 + c.inputNames.length) s.gates := by
  rw [h.gates_eq]
  exact (lowerRelations_inPlace (freeFrom_inputs c) h.lowered).1

/-- Every row mentions columns of the system only. -/
theorem below (h : c.Compiled s blocks) {constraint : Constraint F}
    (hmem : constraint ∈ blocks.flatMap Block.constraints) : constraint.Below s.numColumns := by
  obtain ⟨hplaced, hown⟩ := lowerRelations_inPlace (freeFrom_inputs c) h.lowered
  obtain ⟨block, hblock, hconstraint⟩ := List.mem_flatMap.mp hmem
  rw [h.numColumns_eq, h.gates_eq]
  rcases Block.mem_constraints.mp hconstraint with ⟨gate, hgate, rfl⟩ | rfl
  · exact hplaced.constraint_below (List.mem_flatMap.mpr ⟨block, hblock, hgate⟩)
  · exact hown block hblock

/-- A row of the three matrices says what its constraint says. -/
theorem rowHolds?_eq (h : c.Compiled s blocks) {z : List F} (hz : z.length = s.numColumns)
    {row : Nat} {constraint : Constraint F}
    (hrow : (blocks.flatMap Block.constraints)[row]? = some constraint) :
    s.rowHolds? z row = some (decide (constraint.Holds (valueAt z))) := by
  obtain ⟨ha, hb, hc⟩ := h.below (List.mem_of_getElem? hrow)
  rw [← hz] at ha hb hc
  simp only [ConstraintSystem.rowHolds?, h.system_eq, systemOf, List.getElem?_map, hrow,
    Option.map_some, bind, Option.bind, Combination.eval?_of_below ha,
    Combination.eval?_of_below hb, Combination.eval?_of_below hc]
  rfl

/-- A vector of the right length that satisfies all constraints is accepted as it is. -/
theorem check_of_holds (h : c.Compiled s blocks) {z : List F} (hz : z.length = s.numColumns)
    (hall : ∀ constraint ∈ blocks.flatMap Block.constraints, constraint.Holds (valueAt z)) :
    s.check z = .ok ⟨z, s.numShown⟩ := by
  have hrows : s.firstUnsatisfied? z = some none := by
    refine (s.firstUnsatisfiedFrom?_eq_none_iff z 0 _).mpr fun row _ hlt => ?_
    rw [Nat.zero_add, h.numConstraints_eq] at hlt
    rw [h.rowHolds?_eq hz (List.getElem?_eq_getElem hlt),
      decide_eq_true (hall _ (List.getElem_mem hlt))]
  simp [ConstraintSystem.check, hrows, bind, Except.bind]

theorem check_of_firstAt (h : c.Compiled s blocks) {z : List F} (hz : z.length = s.numColumns)
    {row relation : Nat} (hrelation : s.relationOfRow[row]? = some relation)
    (hfirst : FirstAt (fun constraint => ¬ constraint.Holds (valueAt z))
      (blocks.flatMap Block.constraints) row) :
    s.check z = Failure.reject (.constraintViolation row relation) := by
  have hrows : s.firstUnsatisfied? z = some (some row) := by
    obtain ⟨⟨failed, hget, hfails⟩, hearlier⟩ := hfirst
    obtain ⟨hlt, -⟩ := List.getElem?_eq_some_iff.mp hget
    refine s.firstUnsatisfiedFrom?_eq_some z (Nat.zero_le row) ?_ ?_ ?_
    · rwa [Nat.zero_add, h.numConstraints_eq]
    · rw [h.rowHolds?_eq hz hget, decide_eq_false hfails]
    · intro earlier _ hbefore
      have hget' := List.getElem?_eq_getElem (Nat.lt_trans hbefore hlt)
      rw [h.rowHolds?_eq hz hget', decide_eq_true (not_not.mp (hearlier earlier hbefore _ hget'))]
  simp [ConstraintSystem.check, hrows, hrelation, bind, Except.bind]

/-- A vector is accepted exactly if every row holds, and then it is the witness. -/
theorem check_eq_ok_iff (h : c.Compiled s blocks) {z : List F} (hz : z.length = s.numColumns)
    {w : Witness F} :
    s.check z = .ok w ↔ w = ⟨z, s.numShown⟩ ∧
      ∀ constraint ∈ blocks.flatMap Block.constraints, constraint.Holds (valueAt z) := by
  by_cases hall : ∀ constraint ∈ blocks.flatMap Block.constraints, constraint.Holds (valueAt z)
  · rw [h.check_of_holds hz hall, and_iff_left hall, Except.ok.injEq, eq_comm]
  · obtain ⟨failed, hmem, hfails⟩ : ∃ failed ∈ blocks.flatMap Block.constraints,
        ¬ failed.Holds (valueAt z) := by
      push Not at hall
      exact hall
    obtain ⟨row, hfirst⟩ : ∃ row, FirstAt (fun k : Constraint F => ¬ k.Holds (valueAt z))
        (blocks.flatMap Block.constraints) row := exists_firstAt hmem hfails
    have hrow : row < s.relationOfRow.length := by
      obtain ⟨item, hget, -⟩ := hfirst.here
      obtain ⟨hlt, -⟩ := List.getElem?_eq_some_iff.mp hget
      rwa [h.relationOfRow_eq, length_labels]
    rw [h.check_of_firstAt hz (List.getElem?_eq_getElem hrow) hfirst]
    constructor
    · intro herror
      cases herror
    · intro hok
      exact absurd hok.2 hall

end Compiled

end Circuit

end CircuitProof
