import CircuitProof.Circuit.Samples
import CircuitProof.Proofs.Bn254.Fields
import CircuitProof.Proofs.Circuit.Compile
import CircuitProof.Proofs.Circuit.Names
import CircuitProof.Proofs.Linear.Canonical

/-!
# The layout of a compiled system

Every combination that lowering yields is canonical, gates stand on the columns behind the inputs in
the order in which they are solved, and each relation contributes the rows of its gates and then its
own. So a compiled system fits together, and it has a defect only if it has no row at all.
-/

namespace CircuitProof

variable {F : Type}

/-! ## Canonical rows -/

def Constraint.Canonical [Zero F] (constraint : Constraint F) : Prop :=
  constraint.a.Canonical ∧ constraint.b.Canonical ∧ constraint.c.Canonical

variable [Field F] [DecidableEq F] {columnOf : String → Option Nat}

namespace Expression

/-- A combination and the rows of the gates behind it are canonical. -/
structure AllCanonical (a : Combination F) (gates : List (Gate F)) : Prop where
  combination : a.Canonical
  gates : ∀ gate ∈ gates, gate.constraint.Canonical

omit [DecidableEq F] in
theorem AllCanonical.append {a b : Combination F} {first second : List (Gate F)}
    (ha : AllCanonical a first) (hb : AllCanonical b second) :
    ∀ gate ∈ first ++ second, gate.constraint.Canonical :=
  List.forall_mem_append.mpr ⟨ha.gates, hb.gates⟩

theorem lowerMul_canonical {a b c : Combination F} {next : Nat} {own : List (Gate F)}
    (ha : a.Canonical) (hb : b.Canonical) (h : a.lowerMul b next = .ok (c, own)) :
    AllCanonical c own := by
  rcases Combination.lowerMul_eq_ok h with ⟨rfl, ⟨k, -, rfl⟩ | ⟨k, -, rfl⟩⟩ | ⟨rfl, -, -, rfl⟩
  · exact ⟨Combination.canonical_scale b k, nofun⟩
  · exact ⟨Combination.canonical_scale a k, nofun⟩
  · have hcolumn := Combination.canonical_column (F := F) next
    exact ⟨hcolumn, List.forall_mem_singleton.mpr ⟨ha, hb, hcolumn⟩⟩

theorem lowerDiv_canonical {a b c : Combination F} {next : Nat} {own : List (Gate F)}
    (ha : a.Canonical) (hb : b.Canonical) (h : a.lowerDiv b next = .ok (c, own)) :
    AllCanonical c own := by
  rcases Combination.lowerDiv_eq_ok h with ⟨rfl, k, -, -, rfl⟩ | ⟨rfl, -, rfl⟩
  · exact ⟨Combination.canonical_scale a k⁻¹, nofun⟩
  · have hcolumn := Combination.canonical_column (F := F) next
    exact ⟨hcolumn, List.forall_mem_singleton.mpr ⟨hcolumn, hb, ha⟩⟩

theorem lower_canonical {e : Expression F} {next : Nat} {c : Combination F} {gates : List (Gate F)}
    (h : e.lower columnOf next = .ok (c, gates)) : AllCanonical c gates := by
  induction e generalizing next c gates with
  | signal name =>
    obtain ⟨column, -, rfl, rfl⟩ := lower_signal h
    exact ⟨Combination.canonical_column column, nofun⟩
  | constant value =>
    obtain ⟨rfl, rfl⟩ := Emitter.pure_eq_ok h
    exact ⟨Combination.canonical_constant value, nofun⟩
  | neg inner ih =>
    obtain ⟨a, hinner, rfl⟩ := lower_neg h
    exact ⟨Combination.canonical_neg a, (ih hinner).gates⟩
  | add left right ihl ihr =>
    obtain ⟨a, b, first, second, hoperands, rfl, rfl⟩ := lower_add h
    exact ⟨Combination.canonical_add a b, (ihl hoperands.left).append (ihr hoperands.right)⟩
  | sub left right ihl ihr =>
    obtain ⟨a, b, first, second, hoperands, rfl, rfl⟩ := lower_sub h
    exact ⟨Combination.canonical_sub a b, (ihl hoperands.left).append (ihr hoperands.right)⟩
  | mul left right ihl ihr =>
    obtain ⟨a, b, first, second, own, hoperands, hown, rfl⟩ := lower_operands h
    have ha := ihl hoperands.left
    have hb := ihr hoperands.right
    have hc := lowerMul_canonical ha.combination hb.combination hown
    exact ⟨hc.combination, List.forall_mem_append.mpr ⟨ha.append hb, hc.gates⟩⟩
  | div left right ihl ihr =>
    obtain ⟨a, b, first, second, own, hoperands, hown, rfl⟩ := lower_operands h
    have ha := ihl hoperands.left
    have hb := ihr hoperands.right
    have hc := lowerDiv_canonical ha.combination hb.combination hown
    exact ⟨hc.combination, List.forall_mem_append.mpr ⟨ha.append hb, hc.gates⟩⟩

end Expression

def Side.Canonical : Side F → Prop
  | linear c => c.Canonical
  | factors a b => a.Canonical ∧ b.Canonical

theorem Expression.lowerSide_canonical {e : Expression F} {next : Nat} {side : Side F}
    {gates : List (Gate F)} (h : e.lowerSide columnOf next = .ok (side, gates)) :
    side.Canonical ∧ ∀ gate ∈ gates, gate.constraint.Canonical := by
  cases lowersSide_of_lowerSide h with
  | plain _ hlower =>
    have hc := lower_canonical hlower
    exact ⟨hc.combination, hc.gates⟩
  | folded hoperands _ hmul =>
    have ha := lower_canonical hoperands.left
    have hb := lower_canonical hoperands.right
    have hc := lowerMul_canonical ha.combination hb.combination hmul
    exact ⟨hc.combination, ha.append hb⟩
  | factors hoperands _ _ =>
    have ha := lower_canonical hoperands.left
    have hb := lower_canonical hoperands.right
    exact ⟨⟨ha.combination, hb.combination⟩, ha.append hb⟩

theorem Side.equate_canonical {left right : Side F} {next : Nat} {constraint : Constraint F}
    {own : List (Gate F)} (hleft : left.Canonical) (hright : right.Canonical)
    (h : left.equate right next = .ok (constraint, own)) :
    constraint.Canonical ∧ ∀ gate ∈ own, gate.constraint.Canonical := by
  cases left with
  | linear l =>
    cases right with
    | linear r =>
      obtain ⟨rfl, rfl⟩ := Emitter.pure_eq_ok h
      exact ⟨⟨Combination.canonical_sub l r, Combination.canonical_constant 1,
        Combination.canonical_zero⟩, nofun⟩
    | factors x y =>
      obtain ⟨rfl, rfl⟩ := Emitter.pure_eq_ok h
      exact ⟨⟨hright.1, hright.2, hleft⟩, nofun⟩
  | factors a b =>
    cases right with
    | linear r =>
      obtain ⟨rfl, rfl⟩ := Emitter.pure_eq_ok h
      exact ⟨⟨hleft.1, hleft.2, hright⟩, nofun⟩
    | factors x y =>
      obtain ⟨c, product, more, hmul, hpure, rfl⟩ := Emitter.bind_eq_ok h
      obtain ⟨rfl, rfl⟩ := Emitter.pure_eq_ok hpure
      have hc := Expression.lowerMul_canonical hright.1 hright.2 hmul
      rw [List.append_nil]
      exact ⟨⟨hleft.1, hleft.2, hc.combination⟩, hc.gates⟩

/-- Every operation on combinations merges equal columns and drops zeros, so no constraint holds
any. -/
theorem Relation.lower_canonical {relation : Relation F} {next : Nat} {constraint : Constraint F}
    {gates : List (Gate F)} (h : relation.lower columnOf next = .ok (constraint, gates)) :
    constraint.Canonical ∧ ∀ gate ∈ gates, gate.constraint.Canonical := by
  cases relation with
  | equal left right =>
    obtain ⟨l, r, first, second, own, hleft, hright, hown, rfl⟩ := lower_equal h
    obtain ⟨hl, hfirst⟩ := Expression.lowerSide_canonical hleft
    obtain ⟨hr, hsecond⟩ := Expression.lowerSide_canonical hright
    obtain ⟨hconstraint, hown⟩ := Side.equate_canonical hl hr hown
    exact ⟨hconstraint, by simp only [List.forall_mem_append]; exact ⟨⟨hfirst, hsecond⟩, hown⟩⟩
  | product a b c =>
    obtain ⟨x, y, z, first, second, third, hoperands, hthird, rfl, rfl⟩ := lower_product h
    have hx := Expression.lower_canonical hoperands.left
    have hy := Expression.lower_canonical hoperands.right
    have hz := Expression.lower_canonical hthird
    exact ⟨⟨hx.combination, hy.combination, hz.combination⟩,
      List.forall_mem_append.mpr ⟨hx.append hy, hz.gates⟩⟩

theorem lowerRelations_canonical {relations : List (Relation F)} {next index : Nat}
    {blocks : List (Block F)} (h : lowerRelations columnOf next index relations = .ok blocks) :
    ∀ constraint ∈ blocks.flatMap Block.constraints, constraint.Canonical := by
  induction relations generalizing next index blocks with
  | nil =>
    obtain rfl : [] = blocks := by simpa [lowerRelations] using h
    simp
  | cons relation rest ih =>
    obtain ⟨constraint, gates, more, hlower, hmore, rfl⟩ := lowerRelations_cons h
    obtain ⟨hown, hgates⟩ := Relation.lower_canonical hlower
    rw [List.flatMap_cons]
    refine List.forall_mem_append.mpr ⟨fun k hk => ?_, ih hmore⟩
    rcases Block.mem_constraints.mp hk with ⟨gate, hgate, rfl⟩ | rfl
    · exact hgates gate hgate
    · exact hown

/-! ## Rows and their relations -/

theorem length_lowerRelations {relations : List (Relation F)} {next index : Nat}
    {blocks : List (Block F)} (h : lowerRelations columnOf next index relations = .ok blocks) :
    blocks.length = relations.length := by
  induction relations generalizing next index blocks with
  | nil =>
    obtain rfl : [] = blocks := by simpa [lowerRelations] using h
    rfl
  | cons relation rest ih =>
    obtain ⟨constraint, gates, more, -, hmore, rfl⟩ := lowerRelations_cons h
    rw [List.length_cons, List.length_cons, ih hmore]

omit [DecidableEq F] in
/-- Each block has one row more than gates. -/
theorem length_flatMap_constraints (blocks : List (Block F)) :
    (blocks.flatMap Block.constraints).length =
      blocks.length + (blocks.flatMap Block.gates).length := by
  induction blocks with
  | nil => rfl
  | cons block rest ih =>
    simp only [List.flatMap_cons, List.length_append, List.length_cons, ih,
      Circuit.Block.length_constraints]
    omega

namespace Circuit

omit [DecidableEq F] in
/-- No relation is left without a row. -/
theorem mem_labels_iff {index i : Nat} {blocks : List (Block F)} :
    i ∈ labels index blocks ↔ index ≤ i ∧ i < index + blocks.length := by
  induction blocks generalizing index with
  | nil =>
    exact ⟨fun h => absurd h List.not_mem_nil, fun ⟨hle, hlt⟩ => absurd hlt (Nat.not_lt.mpr hle)⟩
  | cons block rest ih =>
    rw [labels_cons, List.mem_append, List.mem_replicate, ih, Block.length_constraints,
      List.length_cons]
    omega

omit [DecidableEq F] in
/-- The rows of a relation stand together, those of earlier relations first. -/
theorem pairwise_labels (index : Nat) (blocks : List (Block F)) :
    (labels index blocks).Pairwise (· ≤ ·) := by
  induction blocks generalizing index with
  | nil => exact .nil
  | cons block rest ih =>
    rw [labels_cons]
    refine List.pairwise_append.mpr
      ⟨List.pairwise_replicate.mpr (.inr (Nat.le_refl index)), ih (index + 1), ?_⟩
    intro i hi j hj
    obtain rfl := List.eq_of_mem_replicate hi
    exact Nat.le_of_succ_le (le_of_mem_labels hj)

end Circuit

/-! ## The system as a whole -/

namespace ConstraintSystem

variable {s : ConstraintSystem F}

omit [Field F] [DecidableEq F] in
/-- A matrix of the width of the system whose columns all exist has no fault. -/
theorem matrixDefect?_of_below {label : String} {m : Matrix F} (hwidth : m.width = s.numColumns)
    (hbelow : ∀ row ∈ m.rows, row.Below s.numColumns) : s.matrixDefect? label m = none := by
  rw [matrixDefect?, if_neg (not_not.mpr hwidth), Option.map_eq_none_iff, Matrix.firstColumnFrom,
    List.findSome?_eq_none_iff]
  intro entry hentry
  obtain ⟨row, index⟩ := entry
  have hrow : row ∈ m.rows := List.mem_of_getElem? (List.mem_zipIdx_iff_getElem?.mp hentry)
  rw [Option.map_eq_none_iff, List.find?_eq_none]
  intro term hterm
  simpa using hbelow row hrow term hterm

omit [Field F] [DecidableEq F] in
/-- The columns have their roles in the order unit, shown, hidden, auxiliary. -/
theorem map_roleOf_range (s : ConstraintSystem F) :
    (List.range s.numColumns).map s.roleOf =
      .unit :: (List.replicate s.numShown .shown ++ List.replicate s.numHidden .hidden ++
        List.replicate s.numAuxiliary .auxiliary) := by
  refine List.ext_getElem (by simp [numColumns]; omega) fun column hcolumn _ => ?_
  rw [List.getElem_map, List.getElem_range]
  cases column with
  | zero => rfl
  | succ column =>
    rw [List.getElem_cons_succ, roleOf, if_neg (by simp [unitColumn])]
    simp only [List.getElem_append, List.length_append, List.length_replicate,
      List.getElem_replicate]
    split
    · rw [dif_pos (by omega), dif_pos (by omega)]
    · split
      · rw [dif_pos (by omega), dif_neg (by omega)]
      · rw [dif_neg (by omega)]

end ConstraintSystem

namespace Circuit

variable {c : Circuit F} {s : ConstraintSystem F} {blocks : List (Block F)}

/-- The layout of a system that was compiled from a circuit. -/
structure LaidOut (c : Circuit F) (s : ConstraintSystem F) : Prop where
  /-- The columns are the constant one, the shown signals, the hidden ones and the auxiliaries. -/
  names : s.names = "one" :: (c.names .shown ++ c.names .hidden ++
    (List.range s.numAuxiliary).map fun i => s!"aux{i}")
  roles : (List.range s.numColumns).map s.roleOf =
    .unit :: ((c.names .shown).map (fun _ => ColumnRole.shown) ++
      (c.names .hidden).map (fun _ => ColumnRole.hidden) ++
      List.replicate s.numAuxiliary .auxiliary)
  /-- A signal is read from the input column of its name. -/
  signals : ∀ name column, c.columnOf name = some column ↔
    0 < column ∧ column < s.numStatement + s.numHidden ∧ s.names[column]? = some name
  /-- Each auxiliary column has its gate, which reads only columns before it. -/
  gates : s.gates.length = s.numAuxiliary ∧ ∀ i gate, s.gates[i]? = some gate →
    gate.target = s.numStatement + s.numHidden + i ∧ gate.Reads gate.target
  numConstraints : s.numConstraints = c.relations.length + s.numAuxiliary
  /-- Every matrix has a canonical row of existing columns for each constraint. -/
  matrices : ∀ m ∈ [s.a, s.b, s.c], m.height = s.numConstraints ∧ m.width = s.numColumns ∧
    ∀ row ∈ m.rows, row.Canonical ∧ row.Below s.numColumns
  /-- The rows stand for the relations in order, and every relation has one. -/
  relations : s.relationOfRow.length = s.numConstraints ∧ s.relationOfRow.Pairwise (· ≤ ·) ∧
    ∀ i, i ∈ s.relationOfRow ↔ i < c.relations.length
  /-- Only a system of no relations has a defect. -/
  defect : s.defect? = none ↔ c.relations ≠ []

namespace Compiled

theorem numStatement_add_numHidden (h : c.Compiled s blocks) :
    s.numStatement + s.numHidden = 1 + c.inputNames.length := by
  rw [ConstraintSystem.numStatement, h.numShown_eq, h.numHidden_eq, length_inputNames, Nat.add_assoc]

theorem numAuxiliary_eq (h : c.Compiled s blocks) : s.numAuxiliary = s.gates.length := by
  rw [h.system_eq, systemOf]

theorem names_eq (h : c.Compiled s blocks) : s.names = "one" :: (c.inputNames ++
    (List.range s.numAuxiliary).map fun i => s!"aux{i}") := by
  rw [h.system_eq]
  rfl

/-- A name leads to its column and, where names do not repeat, back. -/
theorem signals (h : c.Compiled s blocks) (hnodup : c.inputNames.Nodup) (name : String)
    (column : Nat) : c.columnOf name = some column ↔
      0 < column ∧ column < s.numStatement + s.numHidden ∧ s.names[column]? = some name := by
  rw [h.numStatement_add_numHidden, h.names_eq]
  cases column with
  | zero =>
    refine ⟨fun hcolumn => ?_, fun hcolumn => absurd hcolumn.1 (Nat.lt_irrefl 0)⟩
    obtain ⟨i, -, hi⟩ := columnOf_eq_some_iff.mp hcolumn
    cases hi
  | succ column =>
    rw [columnOf_eq_some_iff_getElem? hnodup, List.getElem?_cons_succ]
    constructor
    · intro hname
      obtain ⟨hlt, -⟩ := List.getElem?_eq_some_iff.mp hname
      exact ⟨Nat.succ_pos column, by omega, by rwa [List.getElem?_append_left hlt]⟩
    · rintro ⟨-, hlt, hname⟩
      rwa [List.getElem?_append_left (by omega)] at hname

theorem numConstraints_eq_add (h : c.Compiled s blocks) :
    s.numConstraints = c.relations.length + s.numAuxiliary := by
  rw [h.numConstraints_eq, length_flatMap_constraints, length_lowerRelations h.lowered,
    h.numAuxiliary_eq, h.gates_eq]

/-- The three matrices hold the sides of the constraints, as wide as the system. -/
theorem exists_side (h : c.Compiled s blocks) {m : Matrix F} (hm : m ∈ [s.a, s.b, s.c]) :
    ∃ side : Constraint F → Combination F,
      m = ⟨(blocks.flatMap Block.constraints).map fun k => (side k).terms, s.numColumns⟩ ∧
      ∀ (k : Constraint F) (bound : Nat), (k.Canonical → (side k).Canonical) ∧
        (k.Below bound → (side k).Below bound) := by
  rw [h.numColumns_eq, h.gates_eq]
  simp only [List.mem_cons, List.not_mem_nil, or_false] at hm
  rw [h.system_eq] at hm
  rcases hm with rfl | rfl | rfl
  · exact ⟨Constraint.a, rfl, fun _ _ => ⟨fun hk => hk.1, fun hk => hk.1⟩⟩
  · exact ⟨Constraint.b, rfl, fun _ _ => ⟨fun hk => hk.2.1, fun hk => hk.2.1⟩⟩
  · exact ⟨Constraint.c, rfl, fun _ _ => ⟨fun hk => hk.2.2, fun hk => hk.2.2⟩⟩

/-- Whatever the circuit, the three matrices fit the layout of the columns. -/
theorem matrices (h : c.Compiled s blocks) (m : Matrix F) (hm : m ∈ [s.a, s.b, s.c]) :
    m.height = s.numConstraints ∧ m.width = s.numColumns ∧
      ∀ row ∈ m.rows, row.Canonical ∧ row.Below s.numColumns := by
  obtain ⟨side, rfl, hside⟩ := h.exists_side hm
  refine ⟨?_, rfl, fun row hrow => ?_⟩
  · rw [Matrix.height, List.length_map, h.numConstraints_eq]
  · obtain ⟨k, hk, rfl⟩ := List.mem_map.mp hrow
    obtain ⟨hcanonical, hbelow⟩ := hside k s.numColumns
    exact ⟨hcanonical (lowerRelations_canonical h.lowered k hk), hbelow (h.below hk)⟩

/-- A compiled system can be faulty only in that it has no row. -/
theorem defect?_eq_none_iff (h : c.Compiled s blocks) : s.defect? = none ↔ c.relations ≠ [] := by
  obtain ⟨ha, hwidth_a, hrows_a⟩ := h.matrices s.a (by simp)
  obtain ⟨hb, hwidth_b, hrows_b⟩ := h.matrices s.b (by simp)
  obtain ⟨hc, hwidth_c, hrows_c⟩ := h.matrices s.c (by simp)
  have hheights : ¬ (s.b.height ≠ s.a.height ∨ s.c.height ≠ s.a.height) := by
    rw [hb, hc, ha]
    simp
  have hdefect : s.defect? = if s.a.height = 0 then some .noRows else none := by
    rw [ConstraintSystem.defect?, if_neg hheights,
      ConstraintSystem.matrixDefect?_of_below hwidth_a fun row hrow => (hrows_a row hrow).2,
      ConstraintSystem.matrixDefect?_of_below hwidth_b fun row hrow => (hrows_b row hrow).2,
      ConstraintSystem.matrixDefect?_of_below hwidth_c fun row hrow => (hrows_c row hrow).2]
    rfl
  have hgates : c.relations = [] → s.numAuxiliary = 0 := by
    intro hempty
    have hblocks := length_lowerRelations h.lowered
    rw [hempty, List.length_nil, List.length_eq_zero_iff] at hblocks
    rw [h.numAuxiliary_eq, h.gates_eq, hblocks]
    rfl
  rw [hdefect, ha, h.numConstraints_eq_add]
  constructor
  · intro hnone hempty
    rw [hgates hempty, hempty] at hnone
    cases hnone
  · intro hne
    have hpos := List.length_pos_of_ne_nil hne
    rw [if_neg (by omega)]

end Compiled

/-- A circuit that compiles, under either policy, yields a system with the layout of the circuit. -/
theorem laidOut_of_compile {policy : UnconstrainedPolicy} (h : c.compile policy = .ok s) :
    c.LaidOut s := by
  obtain ⟨blocks, hblocks⟩ := compiled_of_compile h
  have hnodup : c.inputNames.Nodup := by
    rw [← firstRepeated?_eq_none_iff]
    cases hrepeated : firstRepeated? c.inputNames with
    | none => rfl
    | some name =>
      simp only [compile, hrepeated] at h
      cases h
  exact
    { names := hblocks.names_eq
      roles := by
        rw [s.map_roleOf_range, hblocks.numShown_eq, hblocks.numHidden_eq, List.map_const',
          List.map_const']
      signals := hblocks.signals hnodup
      gates := ⟨hblocks.numAuxiliary_eq.symm, fun i gate hgate => by
        rw [hblocks.numStatement_add_numHidden]
        exact hblocks.placed.of_getElem? hgate⟩
      numConstraints := hblocks.numConstraints_eq_add
      matrices := hblocks.matrices
      relations := by
        rw [hblocks.relationOfRow_eq, length_labels, hblocks.numConstraints_eq,
          ← length_lowerRelations hblocks.lowered]
        exact ⟨rfl, pairwise_labels 0 blocks, fun i => by simp [mem_labels_iff]⟩
      defect := hblocks.defect?_eq_none_iff }

theorem laidOut_of_compile_cubic :
    ∃ s, (cubic : Circuit Scalar).compile .reject = .ok s ∧ (cubic : Circuit Scalar).LaidOut s := by
  obtain ⟨s, hs⟩ : ∃ s, (cubic : Circuit Scalar).compile .reject = .ok s := ⟨_, rfl⟩
  exact ⟨s, hs, laidOut_of_compile hs⟩

end Circuit

end CircuitProof
