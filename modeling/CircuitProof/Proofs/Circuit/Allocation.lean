import CircuitProof.Proofs.Circuit.Lowering

/-!
# What each auxiliary column was allocated for

A product takes a column unless an operand folds to a constant, and a quotient takes one unless its
denominator does. A product that stands alone on one side of an equation takes none: the equation is
its constraint, except that of two such sides the right one takes a column after all.
-/

namespace CircuitProof

variable {F : Type}

/-- The gate multiplies or divides the values of the operands of the given expression. -/
def Gate.Computes [Field F] [DecidableEq F] (env : String → F) (z : Nat → F) :
    Expression F → Gate F → Prop
  | .mul left right, .product _ a b =>
    left.value? env = some (a.eval z) ∧ right.value? env = some (b.eval z)
  | .div left right, .quotient _ numerator denominator =>
    left.value? env = some (numerator.eval z) ∧ right.value? env = some (denominator.eval z)
  | _, _ => False

/-- One gate for each source. Each computes its own source as soon as the gates before it are
solved. -/
def Traced [Field F] [DecidableEq F] (env : String → F) (z : Nat → F) :
    List (Expression F) → List (Gate F) → Prop
  | [], [] => True
  | source :: sources, gate :: gates =>
    gate.Computes env z source ∧ (gate.Solved z → Traced env z sources gates)
  | _, _ => False

section
variable [Field F] [DecidableEq F] {env : String → F} {z : Nat → F}

/-- A gate fails where its source does. -/
theorem Gate.Computes.dividesByZero_iff {source : Expression F} {gate : Gate F}
    (h : gate.Computes env z source) : gate.DividesByZero z ↔ source.DividesByZero env := by
  cases source with
  | mul left right =>
    cases gate with
    | product => exact Iff.rfl
    | quotient => exact h.elim
  | div left right =>
    cases gate with
    | product => exact h.elim
    | quotient target numerator denominator =>
      simp only [DividesByZero, Expression.DividesByZero, h.2, Option.some.injEq]
  | _ => exact h.elim

/-- A solved gate gives its column the value of its source. -/
theorem Gate.Computes.value?_of_solved {source : Expression F} {gate : Gate F}
    (h : gate.Computes env z source) (hsolved : gate.Solved z) :
    source.value? env = some (z gate.target) := by
  obtain ⟨hzero, hrow⟩ := hsolved
  cases source with
  | mul left right =>
    cases gate with
    | product target a b =>
      have hproduct : a.eval z * b.eval z = z target := by
        rw [← Combination.eval_column target z]
        exact hrow
      simp [Expression.value?, h.1, h.2, hproduct, Gate.target]
    | quotient => exact h.elim
  | div left right =>
    cases gate with
    | product => exact h.elim
    | quotient target numerator denominator =>
      have hden : denominator.eval z ≠ 0 := hzero
      have hproduct : z target * denominator.eval z = numerator.eval z := by
        rw [← Combination.eval_column target z]
        exact hrow
      rw [Expression.value?_div h.1 h.2 hden, ← hproduct, mul_assoc, mul_inv_cancel₀ hden, mul_one,
        Gate.target]
  | _ => exact h.elim

/-- Gates behind others may rest on these being solved. -/
theorem Traced.append {sources more : List (Expression F)} {gates rest : List (Gate F)}
    (h : Traced env z sources gates)
    (hmore : (∀ gate ∈ gates, gate.Solved z) → Traced env z more rest) :
    Traced env z (sources ++ more) (gates ++ rest) := by
  induction gates generalizing sources with
  | nil =>
    cases sources with
    | nil => exact hmore (by simp)
    | cons => exact h.elim
  | cons gate gates ih =>
    cases sources with
    | nil => exact h.elim
    | cons source sources =>
      refine ⟨h.1, fun hsolved => ih (h.2 hsolved) fun hall => hmore ?_⟩
      intro g hg
      rcases List.mem_cons.mp hg with rfl | hg
      · exact hsolved
      · exact hall g hg

theorem Traced.singleton {source : Expression F} {gate : Gate F} (h : gate.Computes env z source) :
    Traced env z [source] [gate] := ⟨h, fun _ => trivial⟩

/-- Solved gates hold the values of their sources. -/
theorem Traced.values {sources : List (Expression F)} {gates : List (Gate F)}
    (h : Traced env z sources gates) (hsolved : ∀ gate ∈ gates, gate.Solved z) :
    sources.map (fun source => source.value? env) = gates.map fun gate => some (z gate.target) := by
  induction gates generalizing sources with
  | nil =>
    cases sources with
    | nil => rfl
    | cons => exact h.elim
  | cons gate gates ih =>
    cases sources with
    | nil => exact h.elim
    | cons source sources =>
      have hgate : gate.Solved z := hsolved gate List.mem_cons_self
      rw [List.map_cons, List.map_cons, h.1.value?_of_solved hgate,
        ih (h.2 hgate) fun g hg => hsolved g (List.mem_cons_of_mem _ hg)]

/-- Where the gates before it are solved and a gate divides by zero, its source is the first one
that does. -/
theorem Traced.first_dividesByZero {sources : List (Expression F)} {before after : List (Gate F)}
    {gate : Gate F} (h : Traced env z sources (before ++ gate :: after))
    (hbefore : ∀ g ∈ before, g.Solved z) (hzero : gate.DividesByZero z) :
    ∃ earlier source later, sources = earlier ++ source :: later ∧
      earlier.length = before.length ∧ source.DividesByZero env ∧
      ∀ e ∈ earlier, ¬ e.DividesByZero env := by
  induction before generalizing sources with
  | nil =>
    cases sources with
    | nil => exact h.elim
    | cons source sources =>
      exact ⟨[], source, sources, rfl, rfl, h.1.dividesByZero_iff.mp hzero, by simp⟩
  | cons first before ih =>
    cases sources with
    | nil => exact h.elim
    | cons source sources =>
      have hfirst : first.Solved z := hbefore first List.mem_cons_self
      obtain ⟨earlier, found, later, rfl, hlength, hfound, hearlier⟩ :=
        ih (h.2 hfirst) fun g hg => hbefore g (List.mem_cons_of_mem _ hg)
      refine ⟨source :: earlier, found, later, rfl, by simp [hlength], hfound, ?_⟩
      intro e he
      rcases List.mem_cons.mp he with rfl | he
      · exact fun hdiv => hfirst.1 (h.1.dividesByZero_iff.mpr hdiv)
      · exact hearlier e he

end

namespace Expression

section
variable [Zero F] [One F] [Add F] [Neg F] [Mul F] [Inv F] [DecidableEq F]

/-- The expression is lowered to a combination that mentions no signal. -/
def folds (columnOf : String → Option Nat) (e : Expression F) (next : Nat) : Bool :=
  match e.lower columnOf next with
  | .ok (a, _) => a.asConstant?.isSome
  | .error _ => false

/-- The products and quotients in an expression that take a column, in the order of the columns, of
which `next` is the first one. -/
def allocations (columnOf : String → Option Nat) : Expression F → Nat → List (Expression F)
  | signal _, _ => []
  | constant _, _ => []
  | neg inner, next => inner.allocations columnOf next
  | add left right, next =>
    let first := left.allocations columnOf next
    first ++ right.allocations columnOf (next + first.length)
  | sub left right, next =>
    let first := left.allocations columnOf next
    first ++ right.allocations columnOf (next + first.length)
  | mul left right, next =>
    let first := left.allocations columnOf next
    let second := right.allocations columnOf (next + first.length)
    first ++ second ++
      if left.folds columnOf next || right.folds columnOf (next + first.length) then []
      else [mul left right]
  | div left right, next =>
    let first := left.allocations columnOf next
    let second := right.allocations columnOf (next + first.length)
    first ++ second ++
      if right.folds columnOf (next + first.length) then [] else [div left right]

/-- The same for one side of an equation, whose outermost product takes no column. -/
def sideAllocations (columnOf : String → Option Nat) : Expression F → Nat → List (Expression F)
  | mul left right, next =>
    let first := left.allocations columnOf next
    first ++ right.allocations columnOf (next + first.length)
  | e, next => e.allocations columnOf next

/-- The side of an equation is kept as a product of two factors. -/
def factored (columnOf : String → Option Nat) : Expression F → Nat → Bool
  | mul left right, next =>
    !left.folds columnOf next &&
      !right.folds columnOf (next + (left.allocations columnOf next).length)
  | _, _ => false

end

variable [Field F] [DecidableEq F] {columnOf : String → Option Nat}

/-- Whether an expression folds can be told from its lowered form. -/
theorem folds_of_lower {e : Expression F} {next : Nat} {a : Combination F} {gates : List (Gate F)}
    (h : e.lower columnOf next = .ok (a, gates)) :
    e.folds columnOf next = a.asConstant?.isSome := by
  rw [folds, h]

/-- A quotient that takes a column has its denominator among those of the expression. -/
theorem mem_denominators_of_allocations {e l r : Expression F} {next : Nat}
    (h : div l r ∈ e.allocations columnOf next) : r ∈ e.denominators := by
  induction e generalizing next with
  | signal name => simp [allocations] at h
  | constant value => simp [allocations] at h
  | neg inner ih => exact ih h
  | add left right ihl ihr =>
    rcases List.mem_append.mp h with h | h
    · exact List.mem_append_left _ (ihl h)
    · exact List.mem_append_right _ (ihr h)
  | sub left right ihl ihr =>
    rcases List.mem_append.mp h with h | h
    · exact List.mem_append_left _ (ihl h)
    · exact List.mem_append_right _ (ihr h)
  | mul left right ihl ihr =>
    rcases List.mem_append.mp h with h | h
    · rcases List.mem_append.mp h with h | h
      · exact List.mem_append_left _ (ihl h)
      · exact List.mem_append_right _ (ihr h)
    · split at h <;> simp at h
  | div left right ihl ihr =>
    rcases List.mem_append.mp h with h | h
    · rcases List.mem_append.mp h with h | h
      · exact List.mem_append_left _ (List.mem_append_left _ (ihl h))
      · exact List.mem_append_left _ (List.mem_append_right _ (ihr h))
    · split at h
      · simp at h
      · obtain ⟨-, rfl⟩ : l = left ∧ r = right := by simpa using h
        exact List.mem_append_right _ (List.mem_singleton.mpr rfl)

theorem mem_denominators_of_sideAllocations {e l r : Expression F} {next : Nat}
    (h : div l r ∈ e.sideAllocations columnOf next) : r ∈ e.denominators := by
  cases e with
  | mul left right =>
    rcases List.mem_append.mp h with h | h
    · exact List.mem_append_left _ (mem_denominators_of_allocations h)
    · exact List.mem_append_right _ (mem_denominators_of_allocations h)
  | _ => exact @mem_denominators_of_allocations F _ _ columnOf _ l r next h

/-! ## Lowering an expression -/

/-- The assignment holds one in the unit column and the signals' values in theirs. -/
structure Reflects (columnOf : String → Option Nat) (env : String → F) (z : Nat → F) : Prop where
  unit : z unitColumn = 1
  signals : ∀ name column, columnOf name = some column → z column = env name

variable {env : String → F} {z : Nat → F}

/-- The gates compute the sources, and where they are solved the combination has the value of the
expression. -/
structure Simulates (env : String → F) (z : Nat → F) (e : Expression F)
    (sources : List (Expression F)) (a : Combination F) (gates : List (Gate F)) : Prop where
  length_eq : sources.length = gates.length
  traced : Traced env z sources gates
  value : (∀ gate ∈ gates, gate.Solved z) → e.value? env = some (a.eval z)

structure SimulatesOperands (env : String → F) (z : Nat → F) (left right : Expression F)
    (sources : List (Expression F)) (a b : Combination F) (gates : List (Gate F)) : Prop where
  length_eq : sources.length = gates.length
  traced : Traced env z sources gates
  left : (∀ gate ∈ gates, gate.Solved z) → left.value? env = some (a.eval z)
  right : (∀ gate ∈ gates, gate.Solved z) → right.value? env = some (b.eval z)

theorem Simulates.operands {left right : Expression F} {sources more : List (Expression F)}
    {a b : Combination F} {first second : List (Gate F)} (ha : Simulates env z left sources a first)
    (hb : Simulates env z right more b second) :
    SimulatesOperands env z left right (sources ++ more) a b (first ++ second) where
  length_eq := by rw [List.length_append, List.length_append, ha.length_eq, hb.length_eq]
  traced := ha.traced.append fun _ => hb.traced
  left := fun h => ha.value fun gate hgate => h gate (List.mem_append_left _ hgate)
  right := fun h => hb.value fun gate hgate => h gate (List.mem_append_right _ hgate)

/-- A product by a constant takes no gate, every other one takes its own. -/
theorem SimulatesOperands.lowerMul {left right : Expression F} {sources : List (Expression F)}
    {a b c : Combination F} {gates own : List (Gate F)} {next : Nat} (hz : z unitColumn = 1)
    (h : SimulatesOperands env z left right sources a b gates)
    (hown : a.lowerMul b next = .ok (c, own)) :
    Simulates env z (mul left right)
      (sources ++ if a.asConstant?.isSome || b.asConstant?.isSome then [] else [mul left right]) c
      (gates ++ own) := by
  have hproduct : (∀ gate ∈ gates, gate.Solved z) →
      (mul left right).value? env = some (a.eval z * b.eval z) := by
    intro hall
    simp [value?, h.left hall, h.right hall]
  rcases Combination.lowerMul_eq_ok hown with
    ⟨rfl, ⟨k, hk, rfl⟩ | ⟨k, hk, rfl⟩⟩ | ⟨rfl, hka, hkb, rfl⟩
  · simp only [hk, Option.isSome_some, Bool.true_or, ↓reduceIte, List.append_nil]
    refine ⟨h.length_eq, h.traced, fun hall => ?_⟩
    rw [hproduct hall, Combination.eval_of_asConstant? hk hz, Combination.eval_scale, mul_comm]
  · simp only [hk, Option.isSome_some, Bool.or_true, ↓reduceIte, List.append_nil]
    refine ⟨h.length_eq, h.traced, fun hall => ?_⟩
    rw [hproduct hall, Combination.eval_of_asConstant? hk hz, Combination.eval_scale]
  · simp only [hka, hkb, Option.isSome_none, Bool.or_self, Bool.false_eq_true, ↓reduceIte]
    refine ⟨by simp [h.length_eq], ?_, fun hall => ?_⟩
    · exact h.traced.append fun hall => .singleton ⟨h.left hall, h.right hall⟩
    · rw [hproduct fun gate hgate => hall gate (List.mem_append_left _ hgate)]
      have hrow := (hall _ (List.mem_append_right _ (List.mem_singleton.mpr rfl))).2
      exact congrArg some hrow

/-- A quotient by a constant takes no gate, one by anything else takes its own. -/
theorem SimulatesOperands.lowerDiv {left right : Expression F} {sources : List (Expression F)}
    {a b c : Combination F} {gates own : List (Gate F)} {next : Nat} (hz : z unitColumn = 1)
    (h : SimulatesOperands env z left right sources a b gates)
    (hown : a.lowerDiv b next = .ok (c, own)) :
    Simulates env z (div left right)
      (sources ++ if b.asConstant?.isSome then [] else [div left right]) c (gates ++ own) := by
  rcases Combination.lowerDiv_eq_ok hown with ⟨rfl, k, hk, hne, rfl⟩ | ⟨rfl, hk, rfl⟩
  · simp only [hk, Option.isSome_some, ↓reduceIte, List.append_nil]
    refine ⟨h.length_eq, h.traced, fun hall => ?_⟩
    have hvalue : b.eval z = k := Combination.eval_of_asConstant? hk hz
    have hnonzero : b.eval z ≠ 0 := by rwa [hvalue]
    rw [value?_div (h.left hall) (h.right hall) hnonzero, hvalue, Combination.eval_scale]
  · simp only [hk, Option.isSome_none, Bool.false_eq_true, ↓reduceIte]
    refine ⟨by simp [h.length_eq], ?_, fun hall => ?_⟩
    · exact h.traced.append fun hall => .singleton ⟨h.left hall, h.right hall⟩
    · have hbefore : ∀ gate ∈ gates, gate.Solved z :=
        fun gate hgate => hall gate (List.mem_append_left _ hgate)
      have hcomputes : (Gate.quotient next a b).Computes env z (div left right) :=
        ⟨h.left hbefore, h.right hbefore⟩
      rw [Combination.eval_column]
      have hlast := hall _ (List.mem_append_right _ (List.mem_singleton.mpr rfl))
      exact hcomputes.value?_of_solved hlast

/-- An expression is simulated by its combination and its gates, whichever of its parts fold. -/
theorem lower_simulates {e : Expression F} {next : Nat} {c : Combination F} {gates : List (Gate F)}
    (hz : Reflects columnOf env z) (h : e.lower columnOf next = .ok (c, gates)) :
    Simulates env z e (e.allocations columnOf next) c gates := by
  induction e generalizing next c gates with
  | signal name =>
    obtain ⟨column, hcolumn, rfl, rfl⟩ := lower_signal h
    refine ⟨rfl, trivial, fun _ => ?_⟩
    rw [Combination.eval_column, hz.signals name column hcolumn, value?]
  | constant value =>
    obtain ⟨rfl, rfl⟩ := Emitter.pure_eq_ok h
    refine ⟨rfl, trivial, fun _ => ?_⟩
    rw [Combination.eval_constant, hz.unit, mul_one, value?]
  | neg inner ih =>
    obtain ⟨a, hinner, rfl⟩ := lower_neg h
    have ha := ih hinner
    exact ⟨ha.length_eq, ha.traced, fun hall => by simp [value?, ha.value hall]⟩
  | add left right ihl ihr =>
    obtain ⟨a, b, first, second, hoperands, rfl, rfl⟩ := lower_add h
    have ha := ihl hoperands.left
    have hab := ha.operands (ihr hoperands.right)
    rw [allocations, ha.length_eq]
    exact ⟨hab.length_eq, hab.traced, fun hall => by simp [value?, hab.left hall, hab.right hall]⟩
  | sub left right ihl ihr =>
    obtain ⟨a, b, first, second, hoperands, rfl, rfl⟩ := lower_sub h
    have ha := ihl hoperands.left
    have hab := ha.operands (ihr hoperands.right)
    rw [allocations, ha.length_eq]
    exact ⟨hab.length_eq, hab.traced, fun hall => by simp [value?, hab.left hall, hab.right hall]⟩
  | mul left right ihl ihr =>
    obtain ⟨a, b, first, second, own, hoperands, hown, rfl⟩ := lower_operands h
    have ha := ihl hoperands.left
    have hab := ha.operands (ihr hoperands.right)
    rw [allocations, ha.length_eq, folds_of_lower hoperands.left, folds_of_lower hoperands.right]
    exact hab.lowerMul hz.unit hown
  | div left right ihl ihr =>
    obtain ⟨a, b, first, second, own, hoperands, hown, rfl⟩ := lower_operands h
    have ha := ihl hoperands.left
    have hab := ha.operands (ihr hoperands.right)
    rw [allocations, ha.length_eq, folds_of_lower hoperands.right]
    exact hab.lowerDiv hz.unit hown

/-! ## Lowering a side of an equation -/

/-- A side is simulated by its combination, or by its two factors. -/
inductive SimulatesSide (env : String → F) (z : Nat → F) :
    Expression F → List (Expression F) → Side F → List (Gate F) → Bool → Prop where
  | linear {e : Expression F} {sources : List (Expression F)} {c : Combination F}
    {gates : List (Gate F)} :
    Simulates env z e sources c gates → SimulatesSide env z e sources (.linear c) gates false
  | factors {left right : Expression F} {sources : List (Expression F)} {a b : Combination F}
    {gates : List (Gate F)} :
    SimulatesOperands env z left right sources a b gates → a.asConstant? = none →
      b.asConstant? = none →
      SimulatesSide env z (mul left right) sources (.factors a b) gates true

/-- The outermost product of a side takes no gate, so its factors are what is simulated. -/
theorem lowerSide_simulates {e : Expression F} {next : Nat} {side : Side F}
    {gates : List (Gate F)} (hz : Reflects columnOf env z)
    (h : e.lowerSide columnOf next = .ok (side, gates)) :
    SimulatesSide env z e (e.sideAllocations columnOf next) side gates
      (e.factored columnOf next) := by
  cases lowersSide_of_lowerSide h with
  | plain hplain hlower =>
    have hsources : e.sideAllocations columnOf next = e.allocations columnOf next := by
      cases e with
      | mul left right => exact absurd rfl (hplain left right)
      | _ => rfl
    have hfactored : e.factored columnOf next = false := by
      cases e with
      | mul left right => exact absurd rfl (hplain left right)
      | _ => rfl
    rw [hsources, hfactored]
    exact .linear (lower_simulates hz hlower)
  | @folded left right a b c first second hoperands hfold hmul =>
    have ha := lower_simulates hz hoperands.left
    have hab := ha.operands (lower_simulates hz hoperands.right)
    have hfactored : (mul left right).factored columnOf next = false := by
      rw [factored, ha.length_eq, folds_of_lower hoperands.left, folds_of_lower hoperands.right,
        ← Bool.not_or, hfold, Bool.not_true]
    have hsimulates := hab.lowerMul hz.unit hmul
    rw [if_pos hfold, List.append_nil, List.append_nil] at hsimulates
    rw [hfactored, sideAllocations, ha.length_eq]
    exact .linear hsimulates
  | @factors left right a b first second hoperands hka hkb =>
    have ha := lower_simulates hz hoperands.left
    have hab := ha.operands (lower_simulates hz hoperands.right)
    have hfactored : (mul left right).factored columnOf next = true := by
      rw [factored, ha.length_eq, folds_of_lower hoperands.left, folds_of_lower hoperands.right,
        hka, hkb]
      rfl
    rw [hfactored, sideAllocations, ha.length_eq]
    exact .factors hab hka hkb

end Expression

def Side.eval [Field F] (z : Nat → F) : Side F → F
  | linear c => c.eval z
  | factors a b => a.eval z * b.eval z

namespace Relation

section
variable [Zero F] [One F] [Add F] [Neg F] [Mul F] [Inv F] [DecidableEq F]

def allocations (columnOf : String → Option Nat) : Relation F → Nat → List (Expression F)
  | equal left right, next =>
    let first := left.sideAllocations columnOf next
    let second := right.sideAllocations columnOf (next + first.length)
    first ++ second ++
      if left.factored columnOf next && right.factored columnOf (next + first.length) then [right]
      else []
  | product a b c, next =>
    let first := a.allocations columnOf next
    let second := b.allocations columnOf (next + first.length)
    first ++ second ++ c.allocations columnOf (next + (first ++ second).length)

/-- The same for relations that are lowered one after the other. -/
def allocationsFrom (columnOf : String → Option Nat) : List (Relation F) → Nat → List (Expression F)
  | [], _ => []
  | relation :: rest, next =>
    let first := relation.allocations columnOf next
    first ++ allocationsFrom columnOf rest (next + first.length)

end

variable [Field F] [DecidableEq F] {columnOf : String → Option Nat} {env : String → F}
  {z : Nat → F}

theorem equal_holds_iff {left right : Expression F} {v w : F} (hleft : left.value? env = some v)
    (hright : right.value? env = some w) : (equal left right).Holds env ↔ v = w := by
  simp [Holds, hleft, hright, eq_comm]

theorem product_holds_iff {a b c : Expression F} {u v w : F} (ha : a.value? env = some u)
    (hb : b.value? env = some v) (hc : c.value? env = some w) :
    (product a b c).Holds env ↔ u * v = w := by
  simp [Holds, ha, hb, hc, eq_comm]

/-- A quotient that takes a column has its denominator among those of the relation. -/
theorem mem_denominators_of_allocations {relation : Relation F} {l r : Expression F} {next : Nat}
    (h : .div l r ∈ relation.allocations columnOf next) : r ∈ relation.denominators := by
  simp only [denominators, List.mem_flatMap]
  cases relation with
  | equal left right =>
    rcases List.mem_append.mp h with h | h
    · rcases List.mem_append.mp h with h | h
      · exact ⟨left, by simp [sides], Expression.mem_denominators_of_sideAllocations h⟩
      · exact ⟨right, by simp [sides], Expression.mem_denominators_of_sideAllocations h⟩
    · split at h
      · next hboth =>
        obtain rfl : .div l r = right := List.mem_singleton.mp h
        simp [Expression.factored] at hboth
      · simp at h
  | product a b c =>
    rcases List.mem_append.mp h with h | h
    · rcases List.mem_append.mp h with h | h
      · exact ⟨a, by simp [sides], Expression.mem_denominators_of_allocations h⟩
      · exact ⟨b, by simp [sides], Expression.mem_denominators_of_allocations h⟩
    · exact ⟨c, by simp [sides], Expression.mem_denominators_of_allocations h⟩

theorem mem_denominators_of_allocationsFrom {relations : List (Relation F)} {l r : Expression F}
    {next : Nat} (h : .div l r ∈ allocationsFrom columnOf relations next) :
    r ∈ relations.flatMap denominators := by
  induction relations generalizing next with
  | nil => simp [allocationsFrom] at h
  | cons relation rest ih =>
    rw [List.flatMap_cons]
    rcases List.mem_append.mp h with h | h
    · exact List.mem_append_left _ (mem_denominators_of_allocations h)
    · exact List.mem_append_right _ (ih h)

/-- The gates compute the sources, and where they are solved all sides have values and the
constraint says the same as the relation. -/
structure Simulates (env : String → F) (z : Nat → F) (relation : Relation F)
    (sources : List (Expression F)) (constraint : Constraint F) (gates : List (Gate F)) :
    Prop where
  length_eq : sources.length = gates.length
  traced : Traced env z sources gates
  value : (∀ gate ∈ gates, gate.Solved z) → ∀ e ∈ relation.sides, e.value? env ≠ none
  holds_iff : (∀ gate ∈ gates, gate.Solved z) → (constraint.Holds z ↔ relation.Holds env)

end Relation

section
variable [Field F] [DecidableEq F] {env : String → F} {z : Nat → F}

open Expression (SimulatesSide)

namespace Expression.SimulatesSide

variable {e : Expression F} {sources : List (Expression F)} {side : Side F}
  {gates : List (Gate F)} {factored : Bool}

theorem length_eq (h : SimulatesSide env z e sources side gates factored) :
    sources.length = gates.length := by
  cases h with
  | linear hc => exact hc.length_eq
  | factors hab _ _ => exact hab.length_eq

theorem traced (h : SimulatesSide env z e sources side gates factored) :
    Traced env z sources gates := by
  cases h with
  | linear hc => exact hc.traced
  | factors hab _ _ => exact hab.traced

theorem value (h : SimulatesSide env z e sources side gates factored)
    (hall : ∀ gate ∈ gates, gate.Solved z) : e.value? env = some (side.eval z) := by
  cases h with
  | linear hc => exact hc.value hall
  | factors hab _ _ => simp [value?, hab.left hall, hab.right hall, Side.eval]

end Expression.SimulatesSide

namespace Relation

/-- Two sides whose equation needs no further gate. -/
theorem Simulates.of_sides {left right : Expression F} {sources more : List (Expression F)}
    {l r : Side F} {first second : List (Gate F)} {fl fr : Bool} {constraint : Constraint F}
    (hl : SimulatesSide env z left sources l first fl)
    (hr : SimulatesSide env z right more r second fr)
    (hconstraint : constraint.Holds z ↔ l.eval z = r.eval z) :
    Simulates env z (equal left right) (sources ++ more) constraint (first ++ second) := by
  have hleft : (∀ gate ∈ first ++ second, gate.Solved z) → left.value? env = some (l.eval z) :=
    fun hall => hl.value fun gate hgate => hall gate (List.mem_append_left _ hgate)
  have hright : (∀ gate ∈ first ++ second, gate.Solved z) → right.value? env = some (r.eval z) :=
    fun hall => hr.value fun gate hgate => hall gate (List.mem_append_right _ hgate)
  refine ⟨?_, hl.traced.append fun _ => hr.traced, fun hall => ?_, fun hall => ?_⟩
  · rw [List.length_append, List.length_append, hl.length_eq, hr.length_eq]
  · simp [sides, hleft hall, hright hall]
  · rw [hconstraint, equal_holds_iff (hleft hall) (hright hall)]

/-- The constraint equates the two sides' values; a second product costs one gate more. -/
theorem equate_simulates {left right : Expression F} {sources more : List (Expression F)}
    {l r : Side F} {first second own : List (Gate F)} {fl fr : Bool} {constraint : Constraint F}
    {next : Nat} (hz : z unitColumn = 1) (hl : SimulatesSide env z left sources l first fl)
    (hr : SimulatesSide env z right more r second fr)
    (h : l.equate r next = .ok (constraint, own)) :
    Simulates env z (equal left right) (sources ++ more ++ if fl && fr then [right] else [])
      constraint (first ++ second ++ own) := by
  have hl' := hl
  have hr' := hr
  cases hl with
  | @linear _ _ l _ hleft =>
    cases hr with
    | @linear _ _ r _ hright =>
      obtain ⟨rfl, rfl⟩ := Emitter.pure_eq_ok h
      rw [Bool.and_self, if_neg Bool.false_ne_true, List.append_nil, List.append_nil]
      refine Simulates.of_sides hl' hr' ?_
      simp [Constraint.Holds, Side.eval, hz, sub_eq_zero]
    | factors hright hx hy =>
      obtain ⟨rfl, rfl⟩ := Emitter.pure_eq_ok h
      rw [Bool.false_and, if_neg Bool.false_ne_true, List.append_nil, List.append_nil]
      exact Simulates.of_sides hl' hr' eq_comm
  | @factors _ _ _ a b _ hleft ha hb =>
    cases hr with
    | linear hright =>
      obtain ⟨rfl, rfl⟩ := Emitter.pure_eq_ok h
      rw [Bool.and_false, if_neg Bool.false_ne_true, List.append_nil, List.append_nil]
      exact Simulates.of_sides hl' hr' Iff.rfl
    | @factors m n _ x y _ hright hx hy =>
      obtain ⟨c, product, rest, hmul, hpure, rfl⟩ := Emitter.bind_eq_ok h
      obtain ⟨rfl, rfl⟩ := Emitter.pure_eq_ok hpure
      have hproduct := hright.lowerMul hz hmul
      rw [hx, hy, Option.isSome_none, Bool.or_self, if_neg Bool.false_ne_true] at hproduct
      rw [Bool.and_self, if_pos rfl, List.append_nil, List.append_assoc, List.append_assoc]
      exact Simulates.of_sides hl' (.linear hproduct) Iff.rfl

/-- A relation is simulated by its constraint and its gates. -/
theorem lower_simulates {columnOf : String → Option Nat} {relation : Relation F} {next : Nat}
    {constraint : Constraint F} {gates : List (Gate F)} (hz : Expression.Reflects columnOf env z)
    (h : relation.lower columnOf next = .ok (constraint, gates)) :
    Simulates env z relation (relation.allocations columnOf next) constraint gates := by
  cases relation with
  | equal left right =>
    obtain ⟨l, r, first, second, own, hleft, hright, hown, rfl⟩ := lower_equal h
    have hl := Expression.lowerSide_simulates hz hleft
    have hr := Expression.lowerSide_simulates hz hright
    rw [allocations, hl.length_eq]
    exact equate_simulates hz.unit hl hr hown
  | product a b c =>
    obtain ⟨x, y, w, first, second, third, hoperands, hthird, rfl, rfl⟩ := lower_product h
    have hx := Expression.lower_simulates hz hoperands.left
    have hxy := hx.operands (Expression.lower_simulates hz hoperands.right)
    have hw := Expression.lower_simulates hz hthird
    have hsplit : (∀ gate ∈ first ++ second ++ third, gate.Solved z) →
        a.value? env = some (x.eval z) ∧ b.value? env = some (y.eval z) ∧
          c.value? env = some (w.eval z) := by
      intro hall
      have hfirst : ∀ gate ∈ first ++ second, gate.Solved z :=
        fun gate hgate => hall gate (List.mem_append_left _ hgate)
      exact ⟨hxy.left hfirst, hxy.right hfirst,
        hw.value fun gate hgate => hall gate (List.mem_append_right _ hgate)⟩
    rw [allocations, hx.length_eq, hxy.length_eq]
    refine ⟨?_, hxy.traced.append fun _ => hw.traced, fun hall => ?_, fun hall => ?_⟩
    · rw [List.length_append, hxy.length_eq, hw.length_eq, ← List.length_append]
    · obtain ⟨ha, hb, hc⟩ := hsplit hall
      simp [sides, ha, hb, hc]
    · obtain ⟨ha, hb, hc⟩ := hsplit hall
      rw [product_holds_iff ha hb hc]
      exact Iff.rfl

end Relation

end

end CircuitProof
