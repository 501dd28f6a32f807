import CircuitProof.Proofs.Circuit.Unconstrained
import CircuitProof.Proofs.Circuit.Witness
import CircuitProof.Proofs.Field.Decimal
import CircuitProof.Proofs.Linear.Uniqueness

/-!
# The chain of squarings

The equation of a round keeps its square factored and takes no column of its own, so the chain has
one row for each round, and the row of a round holds exactly if the round leads from the value before
it to the value after it. The values that the rounds make of the start are therefore the only ones
that are accepted, and any others are refused at the first round that they break.
-/

namespace CircuitProof

/-! ## The run of a chain -/

section
variable {F : Type} [Field F]

/-- The round of the given index does not lead from the value before it to the value after it. -/
def BreaksAt (values : List F) (i : Nat) : Prop :=
  ∃ before after, values[i]? = some before ∧ values[i + 1]? = some after ∧
    after ≠ before * before + (i : F)

theorem BreaksAt.lt_length {values : List F} {i : Nat} (h : BreaksAt values i) :
    i + 1 < values.length := by
  obtain ⟨before, after, -, hafter, -⟩ := h
  obtain ⟨hlt, -⟩ := List.getElem?_eq_some_iff.mp hafter
  exact hlt

/-- A list is the run from a value exactly if each entry is what its round makes of the one before. -/
theorem eq_chainFrom_iff {current : F} {first : Nat} {values : List F} :
    values = chainFrom current first values.length ↔
      ∀ i before after, (current :: values)[i]? = some before → values[i]? = some after →
        after = before * before + ((first + i : Nat) : F) := by
  induction values generalizing current first with
  | nil => simp [chainFrom]
  | cons next rest ih =>
    rw [List.length_cons, chainFrom, List.cons.injEq]
    constructor
    · rintro ⟨hnext, hrest⟩ i before after hbefore hafter
      cases i with
      | zero =>
        cases hbefore
        cases hafter
        exact hnext
      | succ i =>
        -- what is left of the list is a run that begins one round later
        rw [← hnext, ih] at hrest
        rw [hrest i before after hbefore hafter, Nat.add_right_comm, Nat.add_assoc]
    · intro h
      have hnext : next = current * current + (first : F) := h 0 current next rfl rfl
      refine ⟨hnext, ?_⟩
      rw [← hnext, ih]
      intro i before after hbefore hafter
      rw [h (i + 1) before after hbefore hafter, Nat.add_right_comm, Nat.add_assoc]

/-- The last value of a run of at least one round is its end, and those before it are hidden. -/
theorem eq_squareChainValues_iff {start finish : F} {hidden : List F} :
    (hidden, finish) = squareChainValues start (hidden.length + 1) ↔
      ∀ i, ¬ BreaksAt (start :: (hidden ++ [finish])) i := by
  have hrun : (hidden, finish) = squareChainValues start (hidden.length + 1) ↔
      hidden ++ [finish] = chainFrom start 0 (hidden.length + 1) := by
    obtain hnil | ⟨front, last, heq⟩ := List.eq_nil_or_concat' (chainFrom start 0 (hidden.length + 1))
    · simp [chainFrom] at hnil
    · simp [squareChainValues, heq]
  have hlength : hidden.length + 1 = (hidden ++ [finish]).length := by simp
  rw [hrun, hlength, eq_chainFrom_iff]
  simp only [BreaksAt, List.getElem?_cons_succ, Nat.zero_add, not_exists, not_and, not_not]

end

/-! ## Rows without gates -/

section
variable {F : Type} [Field F] [DecidableEq F] {columnOf : String → Option Nat}

/-- A square keeps its factors, and a signal less a constant is linear. -/
theorem Relation.lower_square {x y : String} {a b : Nat} (hx : columnOf x = some (a + 1))
    (hy : columnOf y = some b) (k : F) (next : Nat) :
    (equal (.mul (.signal x) (.signal x)) (.sub (.signal y) (.constant k))).lower columnOf next =
      .ok (⟨.column (a + 1), .column (a + 1), .column b - .constant k⟩, []) := by
  have hvaries : (Combination.column (a + 1) : Combination F).asConstant? = none := by
    simp [Combination.asConstant?, unitColumn]
  simp [lower, Expression.lowerSide, Expression.lower, hx, hy, hvaries, Side.equate, bind, pure,
    Emitter.bind]

/-- A round says what the chain's rule says. -/
theorem Relation.holds_square_iff {x y : String} {k : F} {env : String → F} :
    (equal (.mul (.signal x) (.signal x)) (.sub (.signal y) (.constant k))).Holds env ↔
      env y = env x * env x + k := by
  simp [Holds, Expression.value?, sub_eq_iff_eq_add]

/-- The constant lies in the unit column and takes nothing from the signal's. -/
theorem Combination.mem_columns_column_sub_constant (a : Nat) (k : F) :
    a + 1 ∈ (column (a + 1) - constant k : Combination F).terms.columns := by
  by_contra hmissing
  have hzero : (column (a + 1) - constant k : Combination F).eval (Pi.single (a + 1) 1) = 0 :=
    Row.eval_single_of_notMem hmissing
  simp [unitColumn] at hzero

end

namespace Circuit

/-- Blocks of a single row each. -/
def singleRows {F : Type} (constraints : List (Constraint F)) : List (Block F) :=
  constraints.map (Block.mk [])

theorem flatMap_gates_singleRows {F : Type} (constraints : List (Constraint F)) :
    (singleRows constraints).flatMap Block.gates = [] := by
  simp [singleRows]

section
variable {F : Type} [Field F]

theorem flatMap_constraints_singleRows (constraints : List (Constraint F)) :
    (singleRows constraints).flatMap Block.constraints = constraints := by
  induction constraints with
  | nil => rfl
  | cons constraint rest ih => simpa [singleRows, Block.constraints] using ih

theorem labels_singleRows (index : Nat) (constraints : List (Constraint F)) :
    labels index (singleRows constraints) = List.range' index constraints.length := by
  induction constraints generalizing index with
  | nil => rfl
  | cons constraint rest ih =>
    rw [singleRows, List.map_cons, labels_cons, ← singleRows, ih]
    rfl

variable [DecidableEq F] {columnOf : String → Option Nat}

/-- Relations that need no gate have one row each. -/
theorem lowerRelations_singleRows {next : Nat} {relations : List (Relation F)}
    {constraints : List (Constraint F)}
    (h : List.Forall₂ (fun relation constraint =>
      relation.lower columnOf next = .ok (constraint, [])) relations constraints) (index : Nat) :
    lowerRelations columnOf next index relations = .ok (singleRows constraints) := by
  induction h generalizing index with
  | nil => rfl
  | cons hlower _ ih => simp [lowerRelations, hlower, ih, singleRows]

end

/-! ## The signals of a chain -/

/-- Where the value after `i` rounds stands among the inputs, of which the start and the end come
first. -/
def chainPlace (rounds i : Nat) : Nat :=
  if i = 0 then 0 else if i = rounds then 1 else i + 1

/-- The inputs are the chain with its last entry moved to the second place. -/
theorem getElem?_chainPlace {α : Type} {first last : α} {middle : List α} {n i : Nat}
    (hlength : middle.length = n) (hi : i ≤ n + 1) :
    (first :: last :: middle)[chainPlace (n + 1) i]? = (first :: (middle ++ [last]))[i]? := by
  by_cases hstart : i = 0
  · simp [chainPlace, hstart]
  · by_cases hend : i = n + 1
    · simp [chainPlace, hend, ← hlength]
    · obtain ⟨j, rfl⟩ : ∃ j, i = j + 1 := ⟨i - 1, by omega⟩
      have hlt : j < middle.length := by omega
      rw [chainPlace, if_neg hstart, if_neg hend]
      simp [List.getElem?_append_left hlt]

theorem exists_chainPlace_eq {n place : Nat} (h : place < n + 2) :
    ∃ i ≤ n + 1, chainPlace (n + 1) i = place := by
  by_cases hstart : place = 0
  · exact ⟨0, by omega, by simp [chainPlace, hstart]⟩
  · by_cases hend : place = 1
    · exact ⟨n + 1, by omega, by simp [chainPlace, hend]⟩
    · refine ⟨place - 1, by omega, ?_⟩
      rw [chainPlace, if_neg (by omega), if_neg (by omega)]
      omega

section
variable {F : Type} [Field F] {n i : Nat}

theorem declarations_squareChain (n : Nat) : (squareChain (n + 1) : Circuit F).declarations =
    ⟨"start", .shown⟩ :: ((List.range n).map (fun i => ⟨"x" ++ decimal (i + 1), .hidden⟩) ++
      [⟨"end", .shown⟩]) := by
  have hmiddle : ∀ i ∈ List.range n, chainSignal (n + 1) (i + 1) =
      ⟨"x" ++ decimal (i + 1), .hidden⟩ := by
    intro i hi
    have hne : i ≠ n := Nat.ne_of_lt (List.mem_range.mp hi)
    simp [chainSignal, hne]
  have hlast : chainSignal (n + 1) (n + 1) = ⟨"end", .shown⟩ := by simp [chainSignal]
  rw [squareChain, List.range_succ_eq_map, List.range_succ, List.map_append, List.map_cons,
    List.map_append, List.map_map, List.map_singleton, List.map_singleton, hlast]
  exact congrArg (fun hidden => _ :: (hidden ++ _)) (List.map_congr_left hmiddle)

theorem names_squareChain_shown (n : Nat) :
    (squareChain (n + 1) : Circuit F).names .shown = ["start", "end"] := by
  simp [names, declarations_squareChain, List.filter_map, Function.comp_def]

theorem names_squareChain_hidden (n : Nat) : (squareChain (n + 1) : Circuit F).names .hidden =
    (List.range n).map fun i => "x" ++ decimal (i + 1) := by
  simp [names, declarations_squareChain, List.filter_map, Function.comp_def]

theorem inputNames_squareChain (n : Nat) : (squareChain (n + 1) : Circuit F).inputNames =
    "start" :: "end" :: (List.range n).map fun i => "x" ++ decimal (i + 1) := by
  rw [inputNames, names_squareChain_shown, names_squareChain_hidden]
  rfl

theorem length_inputNames_squareChain (n : Nat) :
    (squareChain (n + 1) : Circuit F).inputNames.length = n + 2 := by
  simp [inputNames_squareChain]

/-- Decimal names of different numbers differ, and none of them is `start` or `end`. -/
theorem nodup_inputNames_squareChain (n : Nat) :
    (squareChain (n + 1) : Circuit F).inputNames.Nodup := by
  have hinjective : Function.Injective fun i => "x" ++ decimal (i + 1) := by
    intro i j h
    exact Nat.succ_injective (decimal_injective ((String.append_right_inj "x").mp h))
  have hother : ∀ name : String, name.toList.head? ≠ some 'x' →
      name ∉ (List.range n).map fun i => "x" ++ decimal (i + 1) := by
    intro name hname hmem
    obtain ⟨i, -, rfl⟩ := List.mem_map.mp hmem
    rw [String.toList_append] at hname
    exact hname rfl
  rw [inputNames_squareChain, List.nodup_cons, List.nodup_cons]
  refine ⟨?_, hother "end" (by decide), List.nodup_range.map hinjective⟩
  simp [hother "start" (by decide)]

theorem getElem?_inputNames_squareChain (hi : i ≤ n + 1) :
    (squareChain (n + 1) : Circuit F).inputNames[chainPlace (n + 1) i]? =
      some (chainSignal (n + 1) i).name := by
  have hdeclared : "start" :: ((List.range n).map (fun i => "x" ++ decimal (i + 1)) ++ ["end"]) =
      (squareChain (n + 1) : Circuit F).declaredNames := by
    simp [declaredNames, declarations_squareChain, Function.comp_def]
  rw [inputNames_squareChain, getElem?_chainPlace (by simp) hi, hdeclared, declaredNames, squareChain,
    List.getElem?_map, List.getElem?_map, List.getElem?_range (Nat.lt_succ_of_le hi)]
  rfl

/-- The start and the end are shown, so they come before the values in between. -/
theorem columnOf_chainSignal (hi : i ≤ n + 1) :
    (squareChain (n + 1) : Circuit F).columnOf (chainSignal (n + 1) i).name =
      some (chainPlace (n + 1) i + 1) :=
  (columnOf_eq_some_iff_getElem? (nodup_inputNames_squareChain n)).mpr
    (getElem?_inputNames_squareChain hi)

/-! ## The rows of a chain -/

def chainRelation (rounds i : Nat) : Relation F :=
  let current := .signal (chainSignal rounds i).name
  let next := .signal (chainSignal rounds (i + 1)).name
  .equal (.mul current current) (.sub next (.constant (i : F)))

theorem relations_squareChain (rounds : Nat) : (squareChain rounds : Circuit F).relations =
    (List.range rounds).map (chainRelation rounds) := rfl

/-- Nothing is divided in a chain. -/
theorem denominators_squareChain (rounds : Nat) :
    (squareChain rounds : Circuit F).denominators = [] := by
  simp [denominators, relations_squareChain, Relation.denominators, Relation.sides, chainRelation,
    Expression.denominators]

variable [DecidableEq F]

def chainConstraint (rounds i : Nat) : Constraint F where
  a := .column (chainPlace rounds i + 1)
  b := .column (chainPlace rounds i + 1)
  c := .column (chainPlace rounds (i + 1) + 1) - .constant (i : F)

def chainConstraints (rounds : Nat) : List (Constraint F) :=
  (List.range rounds).map (chainConstraint rounds)

def chainSystem (rounds : Nat) : ConstraintSystem F :=
  (squareChain rounds).systemOf (singleRows (chainConstraints rounds))

theorem compiled_squareChain (n : Nat) : (squareChain (n + 1) : Circuit F).Compiled
    (chainSystem (n + 1)) (singleRows (chainConstraints (n + 1))) := by
  refine ⟨lowerRelations_singleRows ?_ 0, rfl⟩
  rw [relations_squareChain, chainConstraints, List.forall₂_map_left_iff,
    List.forall₂_map_right_iff, List.forall₂_same]
  intro i hi
  have hlt : i < n + 1 := List.mem_range.mp hi
  exact Relation.lower_square (columnOf_chainSignal (Nat.le_of_lt hlt))
    (columnOf_chainSignal hlt) (i : F) _

/-- Every value but the last is squared, and the last one is what the last round makes. -/
theorem mem_columns_chainConstraints {i : Nat} (hi : i ≤ n + 1) :
    chainPlace (n + 1) i + 1 ∈
      (chainConstraints (n + 1) : List (Constraint F)).flatMap Constraint.columns := by
  rw [chainConstraints, List.flatMap_map, List.mem_flatMap]
  by_cases hend : i = n + 1
  · subst hend
    refine ⟨n, List.mem_range.mpr (Nat.lt_succ_self n), List.mem_append_right _ ?_⟩
    exact Combination.mem_columns_column_sub_constant _ _
  · refine ⟨i, List.mem_range.mpr (by omega), ?_⟩
    simp [Constraint.columns, chainConstraint]

/-- The name check and the check for unused signals pass as well. -/
theorem compile_squareChain (n : Nat) :
    (squareChain (n + 1) : Circuit F).compile .reject = .ok (chainSystem (n + 1)) := by
  have hmentioned : firstUnmentioned? (chainConstraints (n + 1) : List (Constraint F))
      (1 + (squareChain (n + 1) : Circuit F).inputNames.length) = none := by
    rw [firstUnmentioned?_eq_none_iff, length_inputNames_squareChain]
    intro column hpos hlt
    -- the unit column stands before the inputs, and each input is a value of the chain
    obtain ⟨i, hi, hplace⟩ := exists_chainPlace_eq (show column - 1 < n + 2 by omega)
    obtain rfl : chainPlace (n + 1) i + 1 = column := by omega
    exact mem_columns_chainConstraints hi
  rw [((compiled_squareChain n).compile_eq (nodup_inputNames_squareChain n)).2,
    flatMap_constraints_singleRows, hmentioned]

theorem numConstraints_chainSystem (n : Nat) :
    (chainSystem (n + 1) : ConstraintSystem F).numConstraints = n + 1 := by
  rw [(compiled_squareChain n).numConstraints_eq, flatMap_constraints_singleRows, chainConstraints,
    List.length_map, List.length_range]

theorem numAuxiliary_chainSystem (n : Nat) :
    (chainSystem (n + 1) : ConstraintSystem F).numAuxiliary = 0 := by
  rw [(compiled_squareChain n).numAuxiliary_eq, (compiled_squareChain n).gates_eq,
    flatMap_gates_singleRows, List.length_nil]

/-- Each relation has its one row, so a row has the index of its relation. -/
theorem eq_of_relationOfRow_chainSystem {row relation : Nat}
    (h : (chainSystem (n + 1) : ConstraintSystem F).relationOfRow[row]? = some relation) :
    row = relation := by
  rw [(compiled_squareChain n).relationOfRow_eq, labels_singleRows] at h
  obtain ⟨-, rfl⟩ := List.getElem?_eq_some_iff.mp h
  simp

/-! ## The values of a chain -/

variable {start finish : F} {hidden : List F}

omit [DecidableEq F] in
/-- The signals of a chain take its values in their order. -/
theorem getElem?_chain_eq_environment (hlength : hidden.length = n) {i : Nat} (hi : i ≤ n + 1) :
    (start :: (hidden ++ [finish]))[i]? =
      some ((squareChain (n + 1) : Circuit F).environment [start, finish] hidden
        (chainSignal (n + 1) i).name) := by
  have hinputs : ([start, finish] ++ hidden)[chainPlace (n + 1) i]? =
      (start :: (hidden ++ [finish]))[i]? := getElem?_chainPlace hlength hi
  have hcount : ([start, finish] ++ hidden).length =
      (squareChain (n + 1) : Circuit F).inputNames.length := by
    rw [length_inputNames_squareChain, List.length_append, hlength, Nat.add_comm]
    rfl
  have hvalue := (reflects_environment hcount []).signals _ _ (columnOf_chainSignal hi)
  rw [valueAt, List.append_nil, List.getElem?_cons_succ, hinputs] at hvalue
  have hlt : i < (start :: (hidden ++ [finish])).length := by
    simp
    omega
  rw [← hvalue, List.getElem?_eq_getElem hlt, Option.getD_some]

/-- The rounds that break are the relations that do not hold. -/
theorem breaksAt_iff_not_holds (hlength : hidden.length = n) {i : Nat} (hi : i < n + 1) :
    BreaksAt (start :: (hidden ++ [finish])) i ↔
      ¬ (chainRelation (n + 1) i).Holds
        ((squareChain (n + 1) : Circuit F).environment [start, finish] hidden) := by
  rw [chainRelation, Relation.holds_square_iff, BreaksAt,
    getElem?_chain_eq_environment hlength (Nat.le_of_lt hi),
    getElem?_chain_eq_environment hlength hi]
  simp

/-- The circuit is about one vector only: the chain's values from its start. -/
theorem squareChain_admits_iff (hlength : hidden.length = n) :
    (squareChain (n + 1) : Circuit F).Admits [start, finish] hidden ↔
      (hidden, finish) = squareChainValues start (n + 1) := by
  subst hlength
  rw [eq_squareChainValues_iff]
  constructor
  · rintro ⟨-, hholds⟩ i hbreaks
    have hi : i < hidden.length + 1 := by simpa using hbreaks.lt_length
    have hmem := List.mem_map_of_mem (f := chainRelation (F := F) (hidden.length + 1))
      (List.mem_range.mpr hi)
    exact (breaksAt_iff_not_holds rfl hi).mp hbreaks (hholds _ hmem)
  · intro hkept
    refine ⟨by simp [denominators_squareChain], fun relation hmem => ?_⟩
    obtain ⟨i, hi, rfl⟩ := List.mem_map.mp hmem
    by_contra hfails
    exact hkept i ((breaksAt_iff_not_holds rfl (List.mem_range.mp hi)).mpr hfails)

/-- The first relation that fails is that of the first round that is broken. -/
theorem isLeast_breaksAt (hlength : hidden.length = n) {i : Nat}
    (h : FirstAt (fun r => ¬ r.Holds
        ((squareChain (n + 1) : Circuit F).environment [start, finish] hidden))
      (squareChain (n + 1)).relations i) :
    IsLeast {i | BreaksAt (start :: (hidden ++ [finish])) i} i := by
  obtain ⟨⟨relation, hget, hfails⟩, hearlier⟩ := h
  have hrelation : ∀ j < n + 1,
      (squareChain (n + 1) : Circuit F).relations[j]? = some (chainRelation (n + 1) j) := by
    intro j hj
    rw [relations_squareChain, List.getElem?_map, List.getElem?_range hj, Option.map_some]
  have hi : i < n + 1 := by
    obtain ⟨hlt, -⟩ := List.getElem?_eq_some_iff.mp hget
    simpa [relations_squareChain] using hlt
  obtain rfl : chainRelation (n + 1) i = relation := by
    simpa [hrelation i hi] using hget
  refine ⟨(breaksAt_iff_not_holds hlength hi).mpr hfails, fun j hbreaks => ?_⟩
  by_contra hless
  have hj : j < n + 1 := by omega
  exact hearlier j (Nat.lt_of_not_le hless) _ (hrelation j hj)
    ((breaksAt_iff_not_holds hlength hj).mp hbreaks)

theorem chainSystem_decides (hlength : hidden.length = n) :
    (squareChain (n + 1)).Decides (chainSystem (n + 1)) [start, finish] hidden
      ((chainSystem (n + 1)).generateWitness [start, finish] hidden) := by
  have hcompiled := compiled_squareChain (F := F) n
  apply hcompiled.generateWitness_decides
  · rw [hcompiled.numShown_eq, names_squareChain_shown]
    rfl
  · rw [hcompiled.numHidden_eq, names_squareChain_hidden, List.length_map, List.length_range]
    exact hlength

/-- A chain of any length compiles to one row for each round and no column beyond its inputs, and
its system accepts the values that the rounds make of the start, and no others. Of others, it names
the first round that does not lead from the value before it to the value after it, as row and as
relation. -/
theorem squareChain_accepts_values {rounds : Nat} (hrounds : 0 < rounds) :
    ∃ s, (squareChain rounds : Circuit F).compile .reject = .ok s ∧
      s.numConstraints = rounds ∧ s.numAuxiliary = 0 ∧
      ∀ (start finish : F) (hidden : List F), hidden.length = rounds - 1 →
        ((∃ w, s.generateWitness [start, finish] hidden = .ok w) ↔
          (hidden, finish) = squareChainValues start rounds) ∧
        ((hidden, finish) ≠ squareChainValues start rounds →
          ∃ i, IsLeast {i | BreaksAt (start :: (hidden ++ [finish])) i} i ∧
            s.generateWitness [start, finish] hidden =
              Failure.reject (.constraintViolation i i)) := by
  obtain ⟨n, rfl⟩ : ∃ n, rounds = n + 1 := ⟨rounds - 1, by omega⟩
  refine ⟨chainSystem (n + 1), compile_squareChain n, numConstraints_chainSystem n,
    numAuxiliary_chainSystem n, fun start finish hidden hlength => ?_⟩
  have hdecides : (squareChain (n + 1)).Decides (chainSystem (n + 1)) [start, finish] hidden _ :=
    chainSystem_decides hlength
  refine ⟨hdecides.exists_ok_iff.trans (squareChain_admits_iff hlength), fun hother => ?_⟩
  have hfalse : ∃ r ∈ (squareChain (n + 1) : Circuit F).relations,
      ¬ r.Holds ((squareChain (n + 1) : Circuit F).environment [start, finish] hidden) := by
    by_contra hall
    push Not at hall
    exact hother ((squareChain_admits_iff hlength).mp ⟨by simp [denominators_squareChain], hall⟩)
  obtain ⟨row, i, hfirst, ⟨⟨label, hlabel, rfl⟩, -⟩, houtcome⟩ :=
    hdecides.eq_of_relation (by simp [denominators_squareChain]) hfalse
  obtain rfl := eq_of_relationOfRow_chainSystem hlabel
  exact ⟨row, isLeast_breaksAt hlength hfirst, houtcome⟩

/-- Two squared is four, plus nothing; its square plus one is 17, and the square of that plus two is
291. Where 18 stands for 17, the second round is broken, and the third is not. -/
theorem squareChain_accepts_values_three :
    ∃ s, (squareChain 3 : Circuit Scalar).compile .reject = .ok s ∧ s.numConstraints = 3 ∧
      (∃ w, s.generateWitness [2, 291] [4, 17] = .ok w) ∧
      s.generateWitness [2, 326] [4, 18] = Failure.reject (.constraintViolation 1 1) := by
  obtain ⟨s, hs, hrows, -, hvalues⟩ :=
    squareChain_accepts_values (F := Scalar) (show 0 < 3 by decide)
  refine ⟨s, hs, hrows, (hvalues 2 291 [4, 17] rfl).1.mpr (by decide), ?_⟩
  obtain ⟨i, hi, hrefused⟩ := (hvalues 2 326 [4, 18] rfl).2 (by decide)
  have hsecond : IsLeast {i | BreaksAt ([2, 4, 18, 326] : List Scalar) i} 1 := by
    refine ⟨⟨4, 18, rfl, rfl, by decide⟩, fun j hbreaks => ?_⟩
    by_contra hless
    obtain rfl : j = 0 := by omega
    obtain ⟨before, after, hbefore, hafter, hne⟩ := hbreaks
    cases hbefore
    cases hafter
    exact hne (by decide)
  rw [hi.unique hsecond] at hrefused
  exact hrefused

end

end Circuit

end CircuitProof
