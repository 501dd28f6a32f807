import Mathlib.Data.List.Nodup
import CircuitProof.Circuit.Compile

/-!
# Declared names

The names of a circuit are those of its declarations, the shown ones before the hidden ones. The
first name that is declared again is the one that is reported; where none is, each name has one
column, and each input column one name.
-/

namespace CircuitProof

/-- The name occurs among the names before it, which are all different. -/
def FirstRepeated (names : List String) (name : String) : Prop :=
  ∃ before after, names = before ++ name :: after ∧ before.Nodup ∧ name ∈ before

/-- The names seen so far count as standing in front. -/
theorem firstRepeated?_go_eq_none_iff {seen names : List String} :
    firstRepeated?.go seen names = none ↔ names.Nodup ∧ ∀ name ∈ names, name ∉ seen := by
  induction names generalizing seen with
  | nil => simp [firstRepeated?.go]
  | cons name rest ih =>
    rw [firstRepeated?.go]
    split
    · next hseen => simp [hseen]
    · next hseen =>
      rw [ih, List.nodup_cons]
      constructor
      · rintro ⟨hnodup, hfresh⟩
        have hname : name ∉ rest := fun hmem => hfresh name hmem List.mem_cons_self
        refine ⟨⟨hname, hnodup⟩, fun other hother => ?_⟩
        rcases List.mem_cons.mp hother with rfl | hother
        · exact hseen
        · exact fun hmem => hfresh other hother (List.mem_cons_of_mem _ hmem)
      · rintro ⟨⟨hname, hnodup⟩, hfresh⟩
        refine ⟨hnodup, fun other hother hmem => ?_⟩
        rcases List.mem_cons.mp hmem with rfl | hmem
        · exact hname hother
        · exact hfresh other (List.mem_cons_of_mem _ hother) hmem

theorem firstRepeated?_eq_none_iff {names : List String} :
    firstRepeated? names = none ↔ names.Nodup := by
  rw [firstRepeated?, firstRepeated?_go_eq_none_iff]
  simp

theorem firstRepeated?_go_eq_some {seen names : List String} {name : String}
    (h : firstRepeated?.go seen names = some name) :
    ∃ before after, names = before ++ name :: after ∧ before.Nodup ∧
      (∀ other ∈ before, other ∉ seen) ∧ (name ∈ before ∨ name ∈ seen) := by
  induction names generalizing seen with
  | nil => cases h
  | cons first rest ih =>
    rw [firstRepeated?.go] at h
    split at h
    · next hseen =>
      cases h
      exact ⟨[], rest, rfl, .nil, nofun, .inr hseen⟩
    · next hseen =>
      obtain ⟨before, after, rfl, hnodup, hfresh, hname⟩ := ih h
      have hfirst : first ∉ before := fun hmem => hfresh first hmem List.mem_cons_self
      refine ⟨first :: before, after, rfl, List.nodup_cons.mpr ⟨hfirst, hnodup⟩, ?_, ?_⟩
      · intro other hother hmem
        rcases List.mem_cons.mp hother with rfl | hother
        · exact hseen hmem
        · exact hfresh other hother (List.mem_cons_of_mem _ hmem)
      · rcases hname with hname | hname
        · exact .inl (List.mem_cons_of_mem _ hname)
        · rcases List.mem_cons.mp hname with rfl | hname
          · exact .inl List.mem_cons_self
          · exact .inr hname

/-- The search stops at the earliest name that stands a second time. -/
theorem firstRepeated_of_eq_some {names : List String} {name : String}
    (h : firstRepeated? names = some name) : FirstRepeated names name := by
  obtain ⟨before, after, hnames, hnodup, -, hname⟩ := firstRepeated?_go_eq_some h
  exact ⟨before, after, hnames, hnodup, hname.resolve_right List.not_mem_nil⟩

theorem FirstRepeated.not_nodup {names : List String} {name : String} (h : FirstRepeated names name) :
    ¬ names.Nodup := by
  obtain ⟨before, after, rfl, -, hname⟩ := h
  intro hnodup
  exact (List.nodup_append.mp hnodup).2.2 name hname name List.mem_cons_self rfl

/-- No list has two first repeated names. -/
theorem FirstRepeated.unique {names : List String} {name other : String}
    (h : FirstRepeated names name) (h' : FirstRepeated names other) : name = other := by
  obtain ⟨before, after, rfl, hnodup, hname⟩ := h
  obtain ⟨before', after', heq, hnodup', hother⟩ := h'
  rcases List.append_eq_append_iff.mp heq with ⟨gap, rfl, hgap⟩ | ⟨gap, rfl, hgap⟩
  · cases gap with
    | nil => exact (List.cons.inj hgap).1
    | cons first gap =>
      obtain ⟨rfl, -⟩ := List.cons.inj hgap
      exact absurd rfl ((List.nodup_append.mp hnodup').2.2 name hname name List.mem_cons_self)
  · cases gap with
    | nil => exact (List.cons.inj hgap).1.symm
    | cons first gap =>
      obtain ⟨rfl, -⟩ := List.cons.inj hgap
      exact absurd rfl ((List.nodup_append.mp hnodup).2.2 other hother other List.mem_cons_self)

theorem firstRepeated?_eq_some_iff {names : List String} {name : String} :
    firstRepeated? names = some name ↔ FirstRepeated names name := by
  refine ⟨firstRepeated_of_eq_some, fun h => ?_⟩
  cases hfound : firstRepeated? names with
  | none => exact absurd (firstRepeated?_eq_none_iff.mp hfound) h.not_nodup
  | some found => rw [(firstRepeated_of_eq_some hfound).unique h]

namespace Circuit

variable {F : Type} {c : Circuit F}

/-- The names of all declarations, in the order in which they were written. -/
def declaredNames (c : Circuit F) : List String := c.declarations.map Declaration.name

/-- The columns take the declared names in another order, the shown ones first. -/
theorem inputNames_perm (c : Circuit F) : c.inputNames.Perm c.declaredNames := by
  have hhidden : c.names .hidden =
      (c.declarations.filter fun d => !decide (d.visibility = .shown)).map Declaration.name := by
    refine congrArg (List.map Declaration.name) (List.filter_congr fun d _ => ?_)
    cases d.visibility <;> rfl
  rw [inputNames, hhidden, names, ← List.map_append]
  exact (List.filter_append_perm _ c.declarations).map _

theorem mem_inputNames_iff {name : String} : name ∈ c.inputNames ↔ name ∈ c.declaredNames :=
  c.inputNames_perm.mem_iff

theorem nodup_inputNames_iff : c.inputNames.Nodup ↔ c.declaredNames.Nodup :=
  c.inputNames_perm.nodup_iff

/-- Exactly the undeclared names have no column. -/
theorem columnOf_eq_none_iff {name : String} : c.columnOf name = none ↔ name ∉ c.declaredNames := by
  rw [columnOf, Option.map_eq_none_iff, List.idxOf?_eq_none_iff, mem_inputNames_iff]

/-- Where no name is declared twice, the column of a signal is the one that bears its name. -/
theorem columnOf_eq_some_iff_getElem? (hnodup : c.inputNames.Nodup) {name : String} {column : Nat} :
    c.columnOf name = some (column + 1) ↔ c.inputNames[column]? = some name := by
  rw [columnOf, Option.map_eq_some_iff]
  simp only [List.idxOf?_eq_some_iff, Nat.add_right_cancel_iff]
  constructor
  · rintro ⟨_, ⟨hlt, hname, -⟩, rfl⟩
    rw [List.getElem?_eq_getElem hlt, hname]
  · intro h
    obtain ⟨hlt, rfl⟩ := List.getElem?_eq_some_iff.mp h
    refine ⟨column, ⟨hlt, rfl, fun earlier hearlier hsame => ?_⟩, rfl⟩
    have heq := hnodup.getElem_inj_iff.mp hsame
    omega

end Circuit

end CircuitProof
