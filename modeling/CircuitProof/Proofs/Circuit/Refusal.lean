import CircuitProof.Circuit.Samples
import CircuitProof.Proofs.Bn254.Fields
import CircuitProof.Proofs.Circuit.Compile
import CircuitProof.Proofs.Circuit.Names
import CircuitProof.Proofs.Circuit.Relocation

/-!
# What the compiler refuses

Lowering finishes the operands of an expression, from left to right, before the expression itself.
It stops at the first one that reads a name nobody declared or divides by what has folded to zero,
and at nothing else. A denominator that folds to zero has no other value in any environment, so a
relation that is refused for it never has a meaning.
-/

namespace CircuitProof

variable {F : Type}

/-- The subexpressions in the order in which lowering finishes them. -/
def Expression.visits : Expression F → List (Expression F)
  | signal name => [signal name]
  | constant value => [constant value]
  | neg inner => inner.visits ++ [neg inner]
  | add left right => left.visits ++ right.visits ++ [add left right]
  | sub left right => left.visits ++ right.visits ++ [sub left right]
  | mul left right => left.visits ++ right.visits ++ [mul left right]
  | div left right => left.visits ++ right.visits ++ [div left right]

def Relation.visits (relation : Relation F) : List (Expression F) :=
  relation.sides.flatMap Expression.visits

/-- The visited expressions of relations, each with the index of its relation; `index` is that of
the first one. -/
def Relation.visitsFrom (index : Nat) (relations : List (Relation F)) : List (Nat × Expression F) :=
  (relations.zipIdx index).flatMap fun (relation, i) => relation.visits.map fun e => (i, e)

theorem Relation.visitsFrom_cons (index : Nat) (relation : Relation F) (rest : List (Relation F)) :
    visitsFrom index (relation :: rest) =
      relation.visits.map (fun e => (index, e)) ++ visitsFrom (index + 1) rest := by
  simp [visitsFrom]

theorem Expression.mem_denominators_of_visit {e visit d : Expression F} (h : visit ∈ e.visits)
    (hd : d ∈ visit.denominators) : d ∈ e.denominators := by
  induction e with
  | signal name =>
    obtain rfl := List.mem_singleton.mp h
    exact hd
  | constant value =>
    obtain rfl := List.mem_singleton.mp h
    exact hd
  | neg inner ih =>
    rcases List.mem_append.mp h with h | h
    · exact ih h
    · obtain rfl := List.mem_singleton.mp h
      exact hd
  | add left right ihl ihr | sub left right ihl ihr | mul left right ihl ihr =>
    rcases List.mem_append.mp h with h | h
    · rcases List.mem_append.mp h with h | h
      · exact List.mem_append_left _ (ihl h)
      · exact List.mem_append_right _ (ihr h)
    · obtain rfl := List.mem_singleton.mp h
      exact hd
  | div left right ihl ihr =>
    rcases List.mem_append.mp h with h | h
    · refine List.mem_append_left _ ?_
      rcases List.mem_append.mp h with h | h
      · exact List.mem_append_left _ (ihl h)
      · exact List.mem_append_right _ (ihr h)
    · obtain rfl := List.mem_singleton.mp h
      exact hd

theorem Relation.exists_of_mem_visitsFrom {i : Nat} {relations : List (Relation F)}
    {e : Expression F} (h : (i, e) ∈ visitsFrom 0 relations) :
    ∃ relation, relations[i]? = some relation ∧ e ∈ relation.visits := by
  obtain ⟨⟨relation, j⟩, hmem, hvisit⟩ := List.mem_flatMap.mp h
  obtain ⟨e', he', heq⟩ := List.mem_map.mp hvisit
  obtain ⟨rfl, rfl⟩ := Prod.mk.inj heq
  exact ⟨relation, List.mem_zipIdx_iff_getElem?.mp hmem, he'⟩

/-- The result fails with the first fault of the visited items, and only if there is one. -/
def Scans {ι ε α : Type} (fault : ι → Option ε) (visits : List ι) : Except ε α → Prop
  | .error e => visits.findSome? fault = some e
  | .ok _ => visits.findSome? fault = none

/-- A computation that goes on visits more, unless it has failed before. -/
theorem Scans.bind {α β : Type} {fault : Expression F → Option LoweringError}
    {visits more : List (Expression F)} {m : Emitter F α} {f : α → Emitter F β} {next : Nat}
    (hm : Scans fault visits (m next))
    (hf : ∀ a gates, m next = .ok (a, gates) → Scans fault more (f a (next + gates.length))) :
    Scans fault (visits ++ more) ((m >>= f) next) := by
  cases hresult : m next with
  | error e =>
    rw [hresult] at hm
    rw [Emitter.bind_of_error hresult, Scans, List.findSome?_append, hm, Option.some_or]
  | ok result =>
    obtain ⟨a, gates⟩ := result
    have hsecond := hf a gates hresult
    rw [hresult] at hm
    rw [Emitter.bind_of_ok hresult]
    cases hf' : f a (next + gates.length) with
    | error e =>
      rw [hf'] at hsecond
      rw [Except.map, Scans, List.findSome?_append, hm, Option.none_or, hsecond]
    | ok result =>
      rw [hf'] at hsecond
      rw [Except.map, Scans, List.findSome?_append, hm, Option.none_or, hsecond]

variable [Field F] [DecidableEq F] {columnOf : String → Option Nat} {base : Nat}

/-- What is wrong with an expression whose operands have been lowered. Its denominator is folded as
if the columns from `base` on were free. -/
def Expression.fault? (columnOf : String → Option Nat) (base : Nat) :
    Expression F → Option LoweringError
  | signal name => if columnOf name = none then some (.undeclared name) else none
  | div _ right => if right.folded? columnOf base = some 0 then some .divisionByZero else none
  | _ => none

theorem Combination.scans_lowerMul {fault : Expression F → Option LoweringError}
    (a b : Combination F) (next : Nat) : Scans fault [] (a.lowerMul b next) := by
  unfold lowerMul
  cases a.asConstant? <;> cases b.asConstant? <;> rfl

namespace Expression

/-- Two operands are lowered before their expression, the left one first. -/
theorem scans_operands {β : Type} {left right e : Expression F} {next : Nat}
    {combine : Combination F → Combination F → Emitter F β} (hle : base ≤ next)
    (hleft : ∀ next, base ≤ next →
      Scans (fault? columnOf base) left.visits (left.lower columnOf next))
    (hright : ∀ next, base ≤ next →
      Scans (fault? columnOf base) right.visits (right.lower columnOf next))
    (hown : ∀ a b first second, LowersOperands columnOf left right next a b first second →
      Scans (fault? columnOf base) [e] (combine a b (next + first.length + second.length))) :
    Scans (fault? columnOf base) (left.visits ++ right.visits ++ [e])
      ((left.lower columnOf >>= fun a => right.lower columnOf >>= fun b => combine a b) next) := by
  rw [List.append_assoc]
  refine (hleft next hle).bind fun a first hfirst => ?_
  refine (hright _ (Nat.le_add_right_of_le hle)).bind fun b second hsecond => ?_
  exact hown a b first second ⟨hfirst, hsecond⟩

/-- Lowering fails with the first fault on its way, which does not depend on the columns taken so
far. -/
theorem lower_scans (hfree : FreeFrom columnOf base) (e : Expression F) {next : Nat}
    (hle : base ≤ next) : Scans (fault? columnOf base) e.visits (e.lower columnOf next) := by
  induction e generalizing next with
  | signal name =>
    cases hcolumn : columnOf name with
    | none => simp [lower, hcolumn, Emitter.fail_apply, Scans, visits, fault?]
    | some column => simp [lower, hcolumn, Emitter.pure_apply, Scans, visits, fault?]
  | constant value => rfl
  | neg inner ih => exact (ih hle).bind fun a gates _ => rfl
  | add left right ihl ihr =>
    exact scans_operands hle (fun _ => ihl) (fun _ => ihr) fun _ _ _ _ _ => rfl
  | sub left right ihl ihr =>
    exact scans_operands hle (fun _ => ihl) (fun _ => ihr) fun _ _ _ _ _ => rfl
  | mul left right ihl ihr =>
    refine scans_operands hle (fun _ => ihl) (fun _ => ihr) fun a b _ _ _ => ?_
    have hproduct : ∀ next, Scans (fault? columnOf base) [] (a.lowerMul b next) :=
      a.scans_lowerMul b
    exact hproduct _
  | div left right ihl ihr =>
    refine scans_operands hle (fun _ => ihl) (fun _ => ihr) fun a b first second hoperands => ?_
    -- the denominator has folded here to what it would fold to at the base
    have hfolded : right.folded? columnOf base = b.asConstant? := by
      rw [← folded?_of_le hfree (Nat.le_add_right_of_le hle) right,
        folded?_of_lower hoperands.right]
    cases hb : b.asConstant? with
    | none =>
      simp [Combination.lowerDiv, hb, Emitter.emit_apply, Scans, fault?, hfolded]
    | some k =>
      by_cases hk : k = 0
      · simp [Combination.lowerDiv, hb, inverse?, hk, Emitter.fail_apply, Scans, fault?, hfolded]
      · simp [Combination.lowerDiv, hb, inverse?, hk, Emitter.pure_apply, Scans, fault?, hfolded]

theorem lowerSide_scans (hfree : FreeFrom columnOf base) (e : Expression F) {next : Nat}
    (hle : base ≤ next) : Scans (fault? columnOf base) e.visits (e.lowerSide columnOf next) := by
  cases e with
  | mul left right =>
    refine scans_operands hle (fun _ => lower_scans hfree left) (fun _ => lower_scans hfree right)
      fun a b first second _ => ?_
    split
    · rfl
    · show Scans _ ([] ++ [mul left right]) _
      exact (Combination.scans_lowerMul a b _).bind fun _ _ _ => rfl
  | _ =>
    rw [← List.append_nil (visits _)]
    exact (lower_scans hfree _ hle).bind fun _ _ _ => rfl

end Expression

theorem Side.scans_equate {fault : Expression F → Option LoweringError} (left right : Side F)
    (next : Nat) : Scans fault [] (left.equate right next) := by
  cases left with
  | linear l => cases right <;> rfl
  | factors a b =>
    cases right with
    | linear r => rfl
    | factors x y =>
      show Scans _ ([] ++ []) _
      exact (Combination.scans_lowerMul x y next).bind fun _ _ _ => rfl

open Expression (FreeFrom lower_scans lowerSide_scans)

theorem Relation.lower_scans (hfree : FreeFrom columnOf base) (relation : Relation F) {next : Nat}
    (hle : base ≤ next) :
    Scans (Expression.fault? columnOf base) relation.visits (relation.lower columnOf next) := by
  cases relation with
  | equal left right =>
    refine (lowerSide_scans hfree left hle).bind fun l first _ => ?_
    refine (lowerSide_scans hfree right (Nat.le_add_right_of_le hle)).bind fun r second _ => ?_
    exact l.scans_equate r _
  | product a b c =>
    refine (Expression.lower_scans hfree a hle).bind fun x first _ => ?_
    have hfirst : base ≤ next + first.length := Nat.le_add_right_of_le hle
    refine (Expression.lower_scans hfree b hfirst).bind fun y second _ => ?_
    have hsecond : base ≤ next + first.length + second.length := Nat.le_add_right_of_le hfirst
    exact (Expression.lower_scans hfree c hsecond).bind fun z third _ => rfl

theorem LoweringError.at_inj {i j : Nat} {e e' : LoweringError} :
    e.at i = e'.at j ↔ e = e' ∧ i = j := by
  cases e <;> cases e' <;> simp [LoweringError.at]

/-- The fault of a visited expression, as an error of its relation. -/
def faultAt? (columnOf : String → Option Nat) (base : Nat) (visit : Nat × Expression F) :
    Option CompileError :=
  (visit.2.fault? columnOf base).map (LoweringError.at visit.1)

theorem Relation.findSome?_visits (relation : Relation F) (index : Nat) :
    (relation.visits.map fun e => (index, e)).findSome? (faultAt? columnOf base) =
      (relation.visits.findSome? (Expression.fault? columnOf base)).map (LoweringError.at index) := by
  rw [List.findSome?_map, List.map_findSome?]
  rfl

/-- Relations are visited one after the other, each under its own index. -/
theorem lowerRelations_scans (hfree : FreeFrom columnOf base) (relations : List (Relation F))
    (index : Nat) {next : Nat} (hle : base ≤ next) :
    Scans (faultAt? columnOf base) (Relation.visitsFrom index relations)
      (lowerRelations columnOf next index relations) := by
  induction relations generalizing index next with
  | nil => rfl
  | cons relation rest ih =>
    have hrelation := Relation.lower_scans hfree relation hle
    rw [Relation.visitsFrom_cons, lowerRelations]
    cases hlower : relation.lower columnOf next with
    | error e =>
      rw [hlower, Scans] at hrelation
      simp only [Scans, List.findSome?_append, Relation.findSome?_visits, hrelation, Option.map_some,
        Option.some_or]
    | ok result =>
      obtain ⟨constraint, gates⟩ := result
      rw [hlower, Scans] at hrelation
      have hrest := ih (index + 1) (Nat.le_add_right_of_le (k := gates.length) hle)
      have hsplit : (relation.visits.map (fun e => (index, e)) ++
          Relation.visitsFrom (index + 1) rest).findSome? (faultAt? columnOf base) =
          (Relation.visitsFrom (index + 1) rest).findSome? (faultAt? columnOf base) := by
        rw [List.findSome?_append, Relation.findSome?_visits, hrelation, Option.map_none,
          Option.none_or]
      cases hmore : lowerRelations columnOf (next + gates.length) (index + 1) rest with
      | error e =>
        rw [hmore, Scans] at hrest
        simp only [hmore, Scans, hsplit, hrest]
      | ok blocks =>
        rw [hmore, Scans] at hrest
        simp only [hmore, Scans, hsplit, hrest]

namespace Circuit

variable {c : Circuit F}

/-- The expression folds to the constant: lowered, it mentions no column but the constant one. The
columns behind the inputs are free for it; any later ones would do as well. -/
def FoldsTo (c : Circuit F) (e : Expression F) (value : F) : Prop :=
  e.folded? c.columnOf (1 + c.inputNames.length) = some value

/-- What is wrong with an expression whose operands have been lowered. -/
inductive Faulty (c : Circuit F) : Expression F → LoweringError → Prop where
  | undeclared {name : String} : name ∉ c.declaredNames → Faulty c (.signal name) (.undeclared name)
  | divisionByZero {left right : Expression F} : c.FoldsTo right 0 →
    Faulty c (.div left right) .divisionByZero

/-- The first faulty expression that lowering reaches, with its relation. Relations are lowered in
order, and in each relation the sides from left to right and operands first. -/
def FirstFault (c : Circuit F) (relation : Nat) (error : LoweringError) : Prop :=
  ∃ before e after, Relation.visitsFrom 0 c.relations = before ++ (relation, e) :: after ∧
    c.Faulty e error ∧ ∀ visit ∈ before, ∀ earlier, ¬ c.Faulty visit.2 earlier

/-- What the search takes for a fault is one by the meaning of the circuit. -/
theorem fault?_eq_some_iff {e : Expression F} {error : LoweringError} :
    e.fault? c.columnOf (1 + c.inputNames.length) = some error ↔ c.Faulty e error := by
  constructor
  · intro h
    cases e with
    | signal name =>
      simp only [Expression.fault?, Option.ite_none_right_eq_some, Option.some.injEq] at h
      obtain ⟨hcolumn, rfl⟩ := h
      exact .undeclared (columnOf_eq_none_iff.mp hcolumn)
    | div left right =>
      simp only [Expression.fault?, Option.ite_none_right_eq_some, Option.some.injEq] at h
      obtain ⟨hfolds, rfl⟩ := h
      exact .divisionByZero hfolds
    | _ => cases h
  · rintro (hname | hfolds)
    · rw [Expression.fault?, if_pos (columnOf_eq_none_iff.mpr hname)]
    · exact if_pos hfolds

theorem fault?_eq_none_iff {e : Expression F} :
    e.fault? c.columnOf (1 + c.inputNames.length) = none ↔ ∀ error, ¬ c.Faulty e error := by
  simp only [← fault?_eq_some_iff, Option.eq_none_iff_forall_ne_some, ne_eq]

theorem faultAt?_eq_some_iff {visit : Nat × Expression F} {relation : Nat} {error : LoweringError} :
    faultAt? c.columnOf (1 + c.inputNames.length) visit = some (error.at relation) ↔
      visit.1 = relation ∧ c.Faulty visit.2 error := by
  rw [faultAt?, Option.map_eq_some_iff, ← fault?_eq_some_iff]
  constructor
  · rintro ⟨own, hfault, hat⟩
    obtain ⟨rfl, rfl⟩ := LoweringError.at_inj.mp hat
    exact ⟨rfl, hfault⟩
  · rintro ⟨rfl, hfault⟩
    exact ⟨error, hfault, rfl⟩

theorem faultAt?_eq_none_iff {visit : Nat × Expression F} :
    faultAt? c.columnOf (1 + c.inputNames.length) visit = none ↔
      ∀ error, ¬ c.Faulty visit.2 error := by
  rw [faultAt?, Option.map_eq_none_iff, fault?_eq_none_iff]

/-- The search through all visits finds the first fault. -/
theorem findSome?_faultAt?_eq_some_iff {relation : Nat} {error : LoweringError} :
    (Relation.visitsFrom 0 c.relations).findSome? (faultAt? c.columnOf (1 + c.inputNames.length)) =
      some (error.at relation) ↔ c.FirstFault relation error := by
  simp only [List.findSome?_eq_some_iff, faultAt?_eq_some_iff, faultAt?_eq_none_iff]
  constructor
  · rintro ⟨before, ⟨i, e⟩, after, hvisits, ⟨rfl, hfault⟩, hbefore⟩
    exact ⟨before, e, after, hvisits, hfault, hbefore⟩
  · rintro ⟨before, e, after, hvisits, hfault, hbefore⟩
    exact ⟨before, (relation, e), after, hvisits, ⟨rfl, hfault⟩, hbefore⟩

/-- What lowering the relations of a circuit comes to. -/
theorem lowerRelations_eq_error_iff {relation : Nat} {error : LoweringError} :
    lowerRelations c.columnOf (1 + c.inputNames.length) 0 c.relations =
      .error (error.at relation) ↔ c.FirstFault relation error := by
  have hscans := lowerRelations_scans c.freeFrom_inputs c.relations 0 le_rfl
  rw [← findSome?_faultAt?_eq_some_iff]
  cases hlower : lowerRelations c.columnOf (1 + c.inputNames.length) 0 c.relations with
  | error e =>
    rw [hlower, Scans] at hscans
    rw [hscans, Except.error.injEq, Option.some.injEq]
  | ok blocks =>
    rw [hlower, Scans] at hscans
    simp [hscans]

/-- Every error of lowering is that of some relation. -/
theorem exists_at_of_lowerRelations {columnOf : String → Option Nat} {next index : Nat}
    {relations : List (Relation F)} {e : CompileError}
    (h : lowerRelations columnOf next index relations = .error e) :
    ∃ (relation : Nat) (error : LoweringError), e = error.at relation := by
  induction relations generalizing next index with
  | nil => cases h
  | cons relation rest ih =>
    cases hlower : relation.lower columnOf next with
    | error error =>
      simp only [lowerRelations, hlower] at h
      exact ⟨index, error, (Except.error.inj h).symm⟩
    | ok result =>
      cases hmore : lowerRelations columnOf (next + result.2.length) (index + 1) rest with
      | error e' =>
        simp only [lowerRelations, hlower, hmore] at h
        exact ih (hmore.trans (congrArg Except.error (Except.error.inj h)))
      | ok blocks =>
        simp only [lowerRelations, hlower, hmore] at h
        cases h

/-! ## A denominator that folds to zero -/

/-- Where an expression that folds to a constant has a value, it is that constant. -/
theorem FoldsTo.value? {e : Expression F} {k : F} (h : c.FoldsTo e k) (env : String → F) :
    e.value? env = none ∨ e.value? env = some k := by
  cases hlower : e.lower c.columnOf (1 + c.inputNames.length) with
  | error error =>
    rw [FoldsTo, Expression.folded?, hlower] at h
    cases h
  | ok result =>
    obtain ⟨a, gates⟩ := result
    rw [FoldsTo, Expression.folded?_of_lower hlower] at h
    -- the values of the declared signals, behind which the gates are solved
    have hreflects : ∀ aux, Expression.Reflects c.columnOf env
        (valueAt (1 :: c.inputNames.map env ++ aux)) := by
      intro aux
      refine ⟨by simp [valueAt, unitColumn], fun name column hcolumn => ?_⟩
      obtain ⟨i, hi, rfl⟩ := columnOf_eq_some_iff.mp hcolumn
      obtain ⟨hlt, hname, -⟩ := List.idxOf?_eq_some_iff.mp hi
      rw [valueAt, List.cons_append, List.getElem?_cons_succ,
        List.getElem?_append_left (by simpa using hlt)]
      simp [hlt, hname]
    have hplaced : Gate.Placed (1 :: c.inputNames.map env).length gates := by
      rw [List.length_cons, List.length_map, Nat.add_comm]
      exact (Expression.lower_inPlace c.freeFrom_inputs hlower).placed
    rcases ConstraintSystem.solve_cases hplaced with
      ⟨aux, -, -, hsolved⟩ | ⟨before, gate, after, aux, rfl, -, hbefore, hzero, -⟩
    · have hvalue := (Expression.lower_simulates (hreflects aux) hlower).value hsolved
      rw [Combination.eval_of_asConstant? h (hreflects aux).unit] at hvalue
      exact .inr hvalue
    · have htraced := (Expression.lower_simulates (hreflects aux) hlower).traced
      obtain ⟨earlier, source, later, hallocations, -, hsource, -⟩ :=
        htraced.first_dividesByZero hbefore hzero
      left
      cases source with
      | div left right =>
        have hmem : Expression.div left right ∈
            e.allocations c.columnOf (1 + c.inputNames.length) := by
          rw [hallocations]
          exact List.mem_append_right _ List.mem_cons_self
        exact (Expression.value?_eq_none_iff e env).mpr
          ⟨right, Expression.mem_denominators_of_allocations hmem, hsource⟩
      | _ => exact hsource.elim

/-- Where a visited expression has no value, the whole expression has none. -/
theorem value?_eq_none_of_visit {e visit : Expression F} (h : visit ∈ e.visits) {env : String → F}
    (hvisit : visit.value? env = none) : e.value? env = none := by
  rw [Expression.value?_eq_none_iff] at hvisit ⊢
  obtain ⟨d, hd, hzero⟩ := hvisit
  exact ⟨d, Expression.mem_denominators_of_visit h hd, hzero⟩

/-- The relation of a denominator that folds to zero has a side without a value, whatever the
signals are. -/
theorem FirstFault.undefined {relation : Nat} (h : c.FirstFault relation .divisionByZero) :
    ∃ r, c.relations[relation]? = some r ∧ ∀ env, ∃ e ∈ r.sides, e.value? env = none := by
  obtain ⟨before, visit, after, hvisits, hfault, -⟩ := h
  have hmem : (relation, visit) ∈ Relation.visitsFrom 0 c.relations := by
    rw [hvisits]
    exact List.mem_append_right _ List.mem_cons_self
  obtain ⟨r, hr, hvisit⟩ := Relation.exists_of_mem_visitsFrom hmem
  obtain ⟨e, he, hvisit⟩ := List.mem_flatMap.mp hvisit
  refine ⟨r, hr, fun env => ⟨e, he, value?_eq_none_of_visit hvisit ?_⟩⟩
  cases hfault with
  | divisionByZero hfolds =>
    rw [Expression.value?_div_eq_none_iff]
    exact .inr (hfolds.value? env)

/-! ## Compiling -/

/-- What compiling a circuit comes to when no name is declared twice. -/
theorem compile_of_nodup (hnodup : c.declaredNames.Nodup) (policy : UnconstrainedPolicy) :
    (∃ e, lowerRelations c.columnOf (1 + c.inputNames.length) 0 c.relations = .error e ∧
      c.compile policy = .error e) ∨
    (∃ blocks, lowerRelations c.columnOf (1 + c.inputNames.length) 0 c.relations = .ok blocks) ∧
      ((∃ s, c.compile policy = .ok s) ∨
        policy = .reject ∧ ∃ name, c.compile policy = .error (.unconstrainedSignal name)) := by
  have hrepeated : firstRepeated? c.inputNames = none :=
    firstRepeated?_eq_none_iff.mpr (nodup_inputNames_iff.mpr hnodup)
  cases hlower : lowerRelations c.columnOf (1 + c.inputNames.length) 0 c.relations with
  | error e => exact .inl ⟨e, rfl, by simp only [compile, hrepeated, hlower]⟩
  | ok blocks =>
    refine .inr ⟨⟨blocks, rfl⟩, ?_⟩
    simp only [compile, hrepeated, hlower]
    cases policy with
    | ignore => exact .inl ⟨_, rfl⟩
    | reject =>
      cases firstUnmentioned? (blocks.flatMap Block.constraints) (1 + c.inputNames.length) with
      | none => exact .inl ⟨_, rfl⟩
      | some column => exact .inr ⟨rfl, _, rfl⟩

/-- Names are looked at before any relation is. -/
theorem compile_eq_duplicateSignal_iff {policy : UnconstrainedPolicy} {name : String} :
    c.compile policy = .error (.duplicateSignal name) ↔ FirstRepeated c.inputNames name := by
  rw [← firstRepeated?_eq_some_iff]
  cases hrepeated : firstRepeated? c.inputNames with
  | some found => simp [compile, hrepeated]
  | none =>
    have hnodup : c.declaredNames.Nodup :=
      nodup_inputNames_iff.mp (firstRepeated?_eq_none_iff.mp hrepeated)
    refine ⟨fun h => ?_, fun h => absurd h (by simp)⟩
    rcases compile_of_nodup hnodup policy with ⟨e, hlower, hcompile⟩ | ⟨-, ⟨s, hs⟩ | ⟨-, _, hs⟩⟩
    · obtain ⟨relation, error, rfl⟩ := exists_at_of_lowerRelations hlower
      rw [hcompile] at h
      cases error <;> cases h
    · rw [hs] at h
      cases h
    · rw [hs] at h
      cases h

omit [Field F] [DecidableEq F] in
theorem exists_firstRepeated_iff :
    (∃ name, FirstRepeated c.inputNames name) ↔ ¬ c.declaredNames.Nodup := by
  rw [← nodup_inputNames_iff, ← firstRepeated?_eq_none_iff, Option.eq_none_iff_forall_ne_some]
  simp only [firstRepeated?_eq_some_iff, ne_eq, not_forall, not_not]

/-- With distinct names the first fault decides, whatever the policy. -/
theorem compile_eq_at_iff (hnodup : c.declaredNames.Nodup) {policy : UnconstrainedPolicy}
    {relation : Nat} {error : LoweringError} :
    c.compile policy = .error (error.at relation) ↔ c.FirstFault relation error := by
  rw [← lowerRelations_eq_error_iff]
  rcases compile_of_nodup hnodup policy with
    ⟨e, hlower, hcompile⟩ | ⟨⟨blocks, hlower⟩, ⟨s, hs⟩ | ⟨-, name, hs⟩⟩
  · rw [hlower, hcompile, Except.error.injEq, Except.error.injEq]
  · rw [hlower, hs]
    simp
  · rw [hlower, hs]
    cases error <;> simp [LoweringError.at]

/-- The compiler refuses exactly what is wrong, and names what is wrong first. A name that is
declared twice comes before everything else. Otherwise it is the first faulty expression that
lowering reaches, and where there is none only a signal that no row mentions is refused, if the
policy says so. A relation that divides by a folded zero has no meaning for any values of the
signals. -/
theorem compile_refuses (c : Circuit F) (policy : UnconstrainedPolicy) :
    (∀ name, c.compile policy = .error (.duplicateSignal name) ↔ FirstRepeated c.inputNames name) ∧
    ((∃ name, c.compile policy = .error (.duplicateSignal name)) ↔ ¬ c.declaredNames.Nodup) ∧
    (c.declaredNames.Nodup →
      (∀ relation error,
        c.compile policy = .error (error.at relation) ↔ c.FirstFault relation error) ∧
      ((∀ relation error, ¬ c.FirstFault relation error) →
        (∃ s, c.compile policy = .ok s) ∨
          policy = .reject ∧ ∃ name, c.compile policy = .error (.unconstrainedSignal name))) ∧
    ∀ relation, c.compile policy = .error (.divisionByZero relation) →
      ∃ r, c.relations[relation]? = some r ∧ ∀ env, ∃ e ∈ r.sides, e.value? env = none := by
  refine ⟨fun name => compile_eq_duplicateSignal_iff, ?_, fun hnodup => ⟨fun relation error =>
    compile_eq_at_iff hnodup, fun hnone => ?_⟩, fun relation h => ?_⟩
  · simp only [compile_eq_duplicateSignal_iff, exists_firstRepeated_iff]
  · rcases compile_of_nodup hnodup policy with ⟨e, hlower, -⟩ | ⟨-, hrest⟩
    · obtain ⟨relation, error, rfl⟩ := exists_at_of_lowerRelations hlower
      exact absurd (lowerRelations_eq_error_iff.mp hlower) (hnone relation error)
    · exact hrest
  · have hnodup : c.declaredNames.Nodup := by
      by_contra hrepeated
      obtain ⟨name, hname⟩ := exists_firstRepeated_iff.mpr hrepeated
      rw [compile_eq_duplicateSignal_iff.mpr hname] at h
      cases h
    have hfirst : c.FirstFault relation .divisionByZero := (compile_eq_at_iff hnodup).mp h
    exact hfirst.undefined

/-- The shown number is the hidden one divided by a difference that cancels. -/
def cancelledDenominator : Circuit Scalar where
  name := "cancelled-denominator"
  declarations := [⟨"y", .shown⟩, ⟨"x", .hidden⟩]
  relations := [.equal (.signal "y") (.div (.signal "x") (.sub (.signal "x") (.signal "x")))]

theorem compile_refuses_cancelledDenominator :
    cancelledDenominator.compile .ignore = .error (.divisionByZero 0) ∧
      cancelledDenominator.FirstFault 0 .divisionByZero ∧
      ∃ r, cancelledDenominator.relations[0]? = some r ∧
        ∀ env, ∃ e ∈ r.sides, e.value? env = none := by
  have hcompile : cancelledDenominator.compile .ignore = .error (.divisionByZero 0) := by
    decide +kernel
  obtain ⟨-, -, hnodup, hundefined⟩ := compile_refuses cancelledDenominator .ignore
  have hfirst := (hnodup (by decide)).1 0 .divisionByZero
  exact ⟨hcompile, hfirst.mp hcompile, hundefined 0 hcompile⟩

end Circuit

end CircuitProof
