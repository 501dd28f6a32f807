import CircuitProof.Proofs.Circuit.Layout
import CircuitProof.Proofs.Circuit.Samples
import CircuitProof.System.Witness

/-!
# Inputs by name

An assignment is built by setting names one after the other, and a name keeps the last value that it
was set to. The input columns of a compiled system bear the declared names, the shown ones first, so
an assignment gives the inputs that stand in these columns. Names that no input column bears play no
part, and the first name without a value is the one that is reported.
-/

namespace CircuitProof

namespace Assignment

variable {F : Type} {calls : List (String × F)} {name : String} {value : F}

/-- The assignment that setting names to values in the given order makes. -/
def ofCalls (calls : List (String × F)) : Assignment F :=
  calls.foldl (fun assignment call => assignment.set call.1 call.2) empty

def IsSet (calls : List (String × F)) (name : String) : Prop := ∃ call ∈ calls, call.1 = name

/-- The last call that sets the name gives it the value. -/
def LastSet (calls : List (String × F)) (name : String) (value : F) : Prop :=
  ∃ before after, calls = before ++ (name, value) :: after ∧ ∀ call ∈ after, call.1 ≠ name

def FirstUnset (calls : List (String × F)) (names : List String) (name : String) : Prop :=
  ∃ before after, names = before ++ name :: after ∧ (∀ other ∈ before, IsSet calls other) ∧
    ¬ IsSet calls name

theorem ofCalls_append_singleton (calls : List (String × F)) (call : String × F) :
    ofCalls (calls ++ [call]) = (ofCalls calls).set call.1 call.2 := by
  rw [ofCalls, List.foldl_append]
  rfl

theorem isSet_append_singleton {call : String × F} :
    IsSet (calls ++ [call]) name ↔ IsSet calls name ∨ call.1 = name := by
  simp [IsSet, or_and_right, exists_or]

/-- A name that was never set has no value. -/
theorem get?_ofCalls_eq_none (h : ¬ IsSet calls name) : (ofCalls calls).get? name = none := by
  induction calls using List.reverseRecOn with
  | nil => rfl
  | append_singleton rest call ih =>
    obtain ⟨hrest, hcall⟩ := not_or.mp (mt isSet_append_singleton.mpr h)
    rw [ofCalls_append_singleton, get?_set_of_ne _ _ (Ne.symm hcall), ih hrest]

/-- A name has the value that it was last set to. -/
theorem LastSet.get?_ofCalls (h : LastSet calls name value) :
    (ofCalls calls).get? name = some value := by
  obtain ⟨before, after, rfl, hafter⟩ := h
  induction after using List.reverseRecOn with
  | nil => rw [ofCalls_append_singleton, get?_set_self]
  | append_singleton rest call ih =>
    obtain ⟨hrest, hcall⟩ := List.forall_mem_append.mp hafter
    have hne : call.1 ≠ name := hcall call List.mem_cons_self
    rw [← List.cons_append, ← List.append_assoc, ofCalls_append_singleton,
      get?_set_of_ne _ _ hne.symm, ih hrest]

/-- Of the calls that set a name there is a last one. -/
theorem exists_lastSet (h : IsSet calls name) : ∃ value, LastSet calls name value := by
  induction calls with
  | nil =>
    obtain ⟨call, hcall, -⟩ := h
    cases hcall
  | cons first rest ih =>
    by_cases hrest : IsSet rest name
    · obtain ⟨value, before, after, rfl, hafter⟩ := ih hrest
      exact ⟨value, first :: before, after, rfl, hafter⟩
    · obtain ⟨call, hmem, rfl⟩ := h
      rcases List.mem_cons.mp hmem with rfl | hmem
      · exact ⟨call.2, [], rest, rfl, fun other hother heq => hrest ⟨other, hother, heq⟩⟩
      · exact absurd ⟨call, hmem, rfl⟩ hrest

/-- Names that are not all set have a first one among them that is not. -/
theorem exists_firstUnset {names : List String} (h : ∃ name ∈ names, ¬ IsSet calls name) :
    ∃ name, FirstUnset calls names name := by
  induction names with
  | nil => simp at h
  | cons first rest ih =>
    by_cases hfirst : IsSet calls first
    · obtain ⟨name, hmem, hname⟩ := h
      have hrest : name ∈ rest :=
        (List.mem_cons.mp hmem).resolve_left fun heq => hname (heq ▸ hfirst)
      obtain ⟨missing, before, after, rfl, hbefore, hmissing⟩ := ih ⟨name, hrest, hname⟩
      have hbefore' := List.forall_mem_cons.mpr ⟨hfirst, hbefore⟩
      exact ⟨missing, first :: before, after, rfl, hbefore', hmissing⟩
    · exact ⟨first, [], rest, rfl, nofun, hfirst⟩

end Assignment

namespace ConstraintSystem

open Assignment

variable {F : Type} {s : ConstraintSystem F} {calls : List (String × F)}

/-- The columns from `start` on bear the names. -/
def Bears (s : ConstraintSystem F) (start : Nat) (names : List String) : Prop :=
  ∀ i name, names[i]? = some name → s.nameOf (start + i) = name

theorem Bears.head {start : Nat} {name : String} {rest : List String}
    (h : s.Bears start (name :: rest)) : s.nameOf start = name := h 0 name rfl

theorem Bears.tail {start : Nat} {name : String} {rest : List String}
    (h : s.Bears start (name :: rest)) : s.Bears (start + 1) rest := by
  intro i other hother
  rw [Nat.add_assoc, Nat.add_comm 1 i]
  exact h (i + 1) other hother

theorem Bears.left {start : Nat} {names more : List String} (h : s.Bears start (names ++ more)) :
    s.Bears start names := by
  intro i name hname
  obtain ⟨hlt, -⟩ := List.getElem?_eq_some_iff.mp hname
  exact h i name (by rw [List.getElem?_append_left hlt, hname])

/-- What stands behind other names is borne by the columns behind theirs. -/
theorem Bears.right {start : Nat} {names more : List String} (h : s.Bears start (names ++ more)) :
    s.Bears (start + names.length) more := by
  intro i name hname
  rw [Nat.add_assoc]
  refine h (names.length + i) name ?_
  rw [List.getElem?_append_right (Nat.le_add_right _ _), Nat.add_sub_cancel_left, hname]

/-- Where all names of the columns are set, these hold what the names were last set to. -/
theorem valuesFrom_of_isSet {start : Nat} {names : List String} (hnames : s.Bears start names)
    (hset : ∀ name ∈ names, IsSet calls name) :
    ∃ values, List.Forall₂ (LastSet calls) names values ∧
      s.valuesFrom (ofCalls calls) start names.length = .ok values := by
  induction names generalizing start with
  | nil => exact ⟨[], .nil, rfl⟩
  | cons name rest ih =>
    obtain ⟨hname, hrest⟩ := List.forall_mem_cons.mp hset
    obtain ⟨value, hlast⟩ := exists_lastSet hname
    obtain ⟨values, hvalues, hok⟩ := ih hnames.tail hrest
    refine ⟨value :: values, .cons hlast hvalues, ?_⟩
    rw [List.length_cons, valuesFrom, hnames.head, hlast.get?_ofCalls]
    simp only [hok, Except.map]

/-- The first of the columns' names that was not set is reported. -/
theorem valuesFrom_of_firstUnset {start : Nat} {names : List String} {name : String}
    (hnames : s.Bears start names) (h : FirstUnset calls names name) :
    s.valuesFrom (ofCalls calls) start names.length = .error (.missingAssignment name) := by
  obtain ⟨before, after, rfl, hbefore, hname⟩ := h
  induction before generalizing start with
  | nil =>
    rw [List.nil_append] at hnames
    rw [List.nil_append, List.length_cons, valuesFrom, hnames.head, get?_ofCalls_eq_none hname]
  | cons first rest ih =>
    obtain ⟨hfirst, hrest⟩ := List.forall_mem_cons.mp hbefore
    obtain ⟨value, hlast⟩ := exists_lastSet hfirst
    rw [List.cons_append] at hnames
    rw [List.cons_append, List.length_cons, valuesFrom, hnames.head, hlast.get?_ofCalls]
    simp only [ih hnames.tail hrest, Except.map]

/-- Inputs that are all set are found by name. -/
theorem split_of_isSet {shownNames hiddenNames : List String}
    (hnames : s.Bears 1 (shownNames ++ hiddenNames)) (hshown : s.numShown = shownNames.length)
    (hhidden : s.numHidden = hiddenNames.length)
    (hset : ∀ name ∈ shownNames ++ hiddenNames, IsSet calls name) :
    ∃ shown hidden, List.Forall₂ (LastSet calls) shownNames shown ∧
      List.Forall₂ (LastSet calls) hiddenNames hidden ∧
      s.split (ofCalls calls) = .ok (shown, hidden) := by
  obtain ⟨hsetShown, hsetHidden⟩ := List.forall_mem_append.mp hset
  obtain ⟨shown, hshownLast, hshownOk⟩ := valuesFrom_of_isSet hnames.left hsetShown
  obtain ⟨hidden, hhiddenLast, hhiddenOk⟩ := valuesFrom_of_isSet hnames.right hsetHidden
  refine ⟨shown, hidden, hshownLast, hhiddenLast, ?_⟩
  rw [split, hshown, hhidden, hshownOk, hhiddenOk]
  rfl

/-- The columns of a range are read up to any of them, and then from it on. -/
theorem valuesFrom_add (assignment : Assignment F) (start m n : Nat) :
    s.valuesFrom assignment start (m + n) = (s.valuesFrom assignment start m).bind fun front =>
      (s.valuesFrom assignment (start + m) n).map (front ++ ·) := by
  induction m generalizing start with
  | zero =>
    rw [Nat.zero_add, valuesFrom_zero, Nat.add_zero]
    cases s.valuesFrom assignment start n <;> rfl
  | succ m ih =>
    rw [Nat.succ_add, valuesFrom, valuesFrom, ih (start + 1),
      show start + 1 + m = start + (m + 1) by omega]
    cases assignment.get? (s.nameOf start) with
    | none => rfl
    | some value =>
      cases s.valuesFrom assignment (start + 1) m with
      | error e => rfl
      | ok front => cases s.valuesFrom assignment (start + (m + 1)) n <;> rfl

/-- A name that is missing anywhere among the inputs is missing for the split. -/
theorem split_eq_error {assignment : Assignment F} {e : WitnessError}
    (h : s.valuesFrom assignment 1 (s.numShown + s.numHidden) = .error e) :
    s.split assignment = .error e := by
  rw [valuesFrom_add] at h
  rw [split]
  cases hshown : s.valuesFrom assignment 1 s.numShown with
  | error first =>
    rw [hshown] at h
    exact congrArg Except.error (Except.error.inj h)
  | ok shown =>
    cases hhidden : s.valuesFrom assignment (1 + s.numShown) s.numHidden with
    | error first =>
      rw [hshown, hhidden] at h
      exact congrArg Except.error (Except.error.inj h)
    | ok hidden =>
      rw [hshown, hhidden] at h
      cases h

end ConstraintSystem

namespace Circuit

open Assignment

variable {F : Type} [Field F] [DecidableEq F] {c : Circuit F} {calls : List (String × F)}

/-- The input columns of a compiled system bear the declared names. -/
theorem Compiled.bears {s : ConstraintSystem F} {blocks : List (Block F)}
    (h : c.Compiled s blocks) : s.Bears 1 (c.names .shown ++ c.names .hidden) := by
  intro i name hname
  obtain ⟨hlt, -⟩ := List.getElem?_eq_some_iff.mp hname
  rw [ConstraintSystem.nameOf, h.names_eq, Nat.add_comm, List.getElem?_cons_succ, inputNames,
    List.getElem?_append_left hlt, hname, Option.getD_some]

/-- Inputs given by name are inputs in declaration order: where every declared signal was set, the
values that the shown and the hidden signals were last set to. Otherwise the first name that was not
set, the shown before the hidden, is reported. Other names make no difference. -/
theorem generateWitnessNamed_positional {policy : UnconstrainedPolicy} {s : ConstraintSystem F}
    (h : c.compile policy = .ok s) (calls : List (String × F)) :
    ((∀ d ∈ c.declarations, IsSet calls d.name) → ∃ shown hidden,
      List.Forall₂ (LastSet calls) (c.names .shown) shown ∧
      List.Forall₂ (LastSet calls) (c.names .hidden) hidden ∧
      s.generateWitnessNamed (ofCalls calls) = s.generateWitness shown hidden) ∧
    ((∃ d ∈ c.declarations, ¬ IsSet calls d.name) → ∃ name,
      FirstUnset calls (c.names .shown ++ c.names .hidden) name ∧
      s.generateWitnessNamed (ofCalls calls) = Failure.reject (.missingAssignment name)) := by
  obtain ⟨blocks, hblocks⟩ := compiled_of_compile h
  constructor
  · intro hset
    have hinputs : ∀ name ∈ c.inputNames, IsSet calls name := by
      intro name hname
      obtain ⟨d, hd, rfl⟩ := List.mem_map.mp (mem_inputNames_iff.mp hname)
      exact hset d hd
    obtain ⟨shown, hidden, hshown, hhidden, hsplit⟩ := ConstraintSystem.split_of_isSet hblocks.bears
      hblocks.numShown_eq hblocks.numHidden_eq hinputs
    exact ⟨shown, hidden, hshown, hhidden, by rw [ConstraintSystem.generateWitnessNamed, hsplit]⟩
  · rintro ⟨d, hd, hunset⟩
    have hinput : d.name ∈ c.inputNames := mem_inputNames_iff.mpr (List.mem_map_of_mem hd)
    obtain ⟨name, hfirst⟩ := exists_firstUnset ⟨d.name, hinput, hunset⟩
    have hvalues : s.valuesFrom (ofCalls calls) 1 (s.numShown + s.numHidden) =
        .error (.missingAssignment name) := by
      rw [hblocks.numShown_eq, hblocks.numHidden_eq, ← length_inputNames]
      exact ConstraintSystem.valuesFrom_of_firstUnset hblocks.bears hfirst
    refine ⟨name, hfirst, ?_⟩
    rw [ConstraintSystem.generateWitnessNamed, ConstraintSystem.split_eq_error hvalues]

/-- The hidden `B` of the sum is declared between the shown `A` and `Sum`. The last value of `Sum`
counts, those of `one` and `aux0` do not; and of `Sum` and `B`, both unset, `Sum` is reported. -/
theorem generateWitnessNamed_positional_sum :
    (sum : Circuit Scalar).compile .reject = .ok sumSystem ∧
    sumSystem.generateWitnessNamed
        (ofCalls [("Sum", 1), ("aux0", 7), ("B", 2), ("one", 9), ("A", 3), ("Sum", 5)]) =
      sumSystem.generateWitness [3, 5] [2] ∧
    sumSystem.generateWitnessNamed (ofCalls [("A", 3), ("one", 9)]) =
      Failure.reject (.missingAssignment "Sum") := by
  refine ⟨compile_sum, ?_, ?_⟩
  · obtain ⟨shown, hidden, hshown, hhidden, heq⟩ := (generateWitnessNamed_positional compile_sum
      [("Sum", 1), ("aux0", 7), ("B", 2), ("one", 9), ("A", 3), ("Sum", 5)]).1
      (by simp [sum, IsSet])
    change List.Forall₂ _ ["A", "Sum"] shown at hshown
    change List.Forall₂ _ ["B"] hidden at hhidden
    obtain _ | ⟨ha, _ | ⟨hsum, _ | _⟩⟩ := hshown
    obtain _ | ⟨hb, _ | _⟩ := hhidden
    obtain rfl := Option.some.inj ha.get?_ofCalls
    obtain rfl := Option.some.inj hsum.get?_ofCalls
    obtain rfl := Option.some.inj hb.get?_ofCalls
    exact heq
  · obtain ⟨name, ⟨before, after, hnames, hbefore, hname⟩, heq⟩ :=
      (generateWitnessNamed_positional compile_sum [("A", 3), ("one", 9)]).2 (by simp [sum, IsSet])
    change ["A", "Sum", "B"] = before ++ name :: after at hnames
    rcases before with _ | ⟨first, _ | ⟨second, rest⟩⟩
    · obtain ⟨rfl, -⟩ := List.cons.inj hnames
      exact absurd ⟨_, List.mem_cons_self, rfl⟩ hname
    · obtain ⟨rfl, -⟩ := List.cons.inj (List.cons.inj hnames).2
      exact heq
    · obtain ⟨rfl, -⟩ := List.cons.inj (List.cons.inj hnames).2
      have hset := hbefore "Sum" (by simp)
      simp [IsSet] at hset

end Circuit

end CircuitProof
