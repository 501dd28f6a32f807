import CircuitProof.Contract.Execution
import CircuitProof.Contract.Verifier

/-!
# Running the pieces of a verifier

What the pieces of a contract do in any scope that has the names they use: filling an array, handing words
to a precompile, and looking up a point of the statement.
-/

namespace CircuitProof

namespace Contract

namespace Scope

theorem get?_append (scope rest : Scope) (x : String) :
    get? (scope ++ rest) x = (get? scope x).or (get? rest x) := by
  induction scope with
  | nil => rfl
  | cons entry scope ih =>
    rw [List.cons_append, get?_cons, get?_cons, ih]
    split <;> rfl

end Scope

/-! ## Filling an array -/

namespace Callable

variable (callable : Callable)

theorem answer?_step {scope after : Scope} {s : Step} (h : callable.step? scope s = some after)
    (rest : List Statement) :
    callable.answer? scope (.step s :: rest) = callable.answer? after rest := by
  rw [answer?, h]
  rfl

/-- Items that do not depend on an array fill it up, one after the other. -/
theorem answer?_setItems {array : String} {scope : Scope} {items : List Term} {values : List Nat}
    (done : List Nat)
    (h : ∀ row, items.mapM (Term.value? ((array, .words row) :: scope)) = some values)
    (rest : List Statement) :
    callable.answer? ((array, .words (done ++ List.replicate items.length 0)) :: scope)
        ((items.zipIdx done.length).map (fun (value, index) => .step (.setItem array index value)) ++
          rest) =
      callable.answer? ((array, .words (done ++ values)) :: scope) rest := by
  induction items generalizing done values with
  | nil =>
    cases h []
    rfl
  | cons item items ih =>
    have hsplit : ∀ row, ∃ value values', values = value :: values' ∧
        item.value? ((array, .words row) :: scope) = some value ∧
        items.mapM (Term.value? ((array, .words row) :: scope)) = some values' := by
      intro row
      have hrow := h row
      simp only [List.mapM_cons, Option.bind_eq_bind, Option.bind_eq_some_iff, Option.pure_def,
        Option.some.injEq] at hrow
      obtain ⟨value, hvalue, values', hvalues, heq⟩ := hrow
      exact ⟨value, values', heq.symm, hvalue, hvalues⟩
    obtain ⟨value, values, rfl, -, -⟩ := hsplit []
    have hvalue : ∀ row, item.value? ((array, .words row) :: scope) = some value ∧
        items.mapM (Term.value? ((array, .words row) :: scope)) = some values := by
      intro row
      obtain ⟨_, _, heq, hvalue, hvalues⟩ := hsplit row
      cases heq
      exact ⟨hvalue, hvalues⟩
    have hset : (done ++ List.replicate (items.length + 1) 0).set done.length value =
        done ++ [value] ++ List.replicate items.length 0 := by
      simp [List.replicate_succ]
    have hstep : callable.step?
        ((array, .words (done ++ List.replicate (items.length + 1) 0)) :: scope)
        (.setItem array done.length item) =
          some ((array, .words (done ++ [value] ++ List.replicate items.length 0)) :: scope) := by
      simp [step?, Scope.words?, (hvalue _).1, hset]
    have hrest := ih (done ++ [value]) fun row => (hvalue row).2
    rw [List.length_append, List.length_singleton] at hrest
    rw [List.length_cons, List.zipIdx_cons, List.map_cons, List.cons_append,
      answer?_step callable hstep, hrest, List.append_assoc, List.singleton_append]

end Callable

/-! ## Handing words to a precompile -/

/-- The names of parameters have the values that are passed for them. -/
theorem mapM_names (front rest : Scope) {names : List String} {words : List Nat}
    (hnodup : names.Nodup) (hlength : names.length = words.length)
    (hfront : ∀ x ∈ names, front.get? x = none) :
    (names.map Term.name).mapM
        (Term.value? (front ++ names.zip (words.map Value.word) ++ rest)) = some words := by
  induction names generalizing front words with
  | nil =>
    cases List.length_eq_zero_iff.mp hlength.symm
    rfl
  | cons name names ih =>
    obtain _ | ⟨word, words⟩ := words
    · cases hlength
    · obtain ⟨hname, hnodup⟩ := List.nodup_cons.mp hnodup
      have hrest := ih (front ++ [(name, .word word)]) hnodup (Nat.succ.inj hlength) (by
        intro x hx
        have hne : x ≠ name := fun h => hname (h ▸ hx)
        simp [Scope.get?_append, hfront x (List.mem_cons_of_mem _ hx), hne])
      simp only [List.append_assoc, List.cons_append, List.nil_append] at hrest
      have hvalue : (Term.name name).value?
          (front ++ (name, .word word) :: (names.zip (words.map .word) ++ rest)) = some word := by
        simp [Term.value?, Scope.word?, Scope.get?_append, hfront name List.mem_cons_self]
      simp only [List.map_cons, List.zip_cons_cons, List.append_assoc, List.cons_append,
        List.mapM_cons, hvalue, hrest]
      rfl

/-- The two words of an answer. -/
def pairOf? : List Nat → Option Answer
  | [x, y] => some (.pair x y)
  | _ => none

/-- Words can be passed for parameters that are words. -/
theorem scope?_pointRoutine (name failure : String) (precompile : Precompile)
    {parameters : List String} {words : List Nat} (hlength : parameters.length = words.length) :
    (pointRoutine name parameters precompile failure).scope? (words.map .word) =
      some (parameters.zip (words.map .word)) := by
  have hfits : ∀ parameter ∈ (parameters.map fun x => (Kind.word, x)).zip (words.map Value.word),
      parameter.1.1.holds parameter.2 = true := by
    rintro ⟨⟨kind, x⟩, value⟩ hmem
    obtain ⟨hparameter, hvalue⟩ := List.of_mem_zip hmem
    obtain ⟨_, -, hkind⟩ := List.mem_map.mp hparameter
    obtain ⟨_, -, rfl⟩ := List.mem_map.mp hvalue
    cases hkind
    rfl
  rw [Routine.scope?, if_pos ⟨by simp [pointRoutine, hlength], List.all_eq_true.mpr hfits⟩]
  simp [pointRoutine, Function.comp_def]

/-- A call of a precompile whose success is required goes on with the answer, and only then. -/
theorem answer?_callPrecompile (callable : Callable) {scope : Scope} {input output flag : String}
    {given : List Nat} (hgiven : scope.words? input = some given) (hflag : input ≠ flag)
    (houtput : input ≠ output) (hother : output ≠ flag) (precompile : Precompile)
    {inputSize outputSize size : Nat} (hinputSize : inputSize = 32 * given.length)
    (houtputSize : outputSize = 32 * size) (failure : String) (rest : List Statement) :
    callable.answer? scope (.step (.declareZeros output size) :: .step (.declareFlag flag) ::
        .step (.callPrecompile flag precompile input inputSize output outputSize) ::
        .step (.require (.holds flag) failure) :: rest) =
      (callable.precompile precompile given).bind fun answer =>
        if answer.length = size then
          callable.answer? ((flag, .truth true) :: (output, .words answer) :: scope) rest
        else none := by
  have hinput : Scope.words?
      ((flag, .truth false) :: (output, .words (List.replicate size 0)) :: scope) input =
        some given := by
    simpa [Scope.words?, hflag, houtput] using hgiven
  have hzeros : Scope.words?
      ((flag, .truth false) :: (output, .words (List.replicate size 0)) :: scope) output =
        some (List.replicate size 0) := by
    simp [Scope.words?, hother]
  simp only [Callable.answer?, Callable.step?, Callable.precompiled?, Option.bind_eq_bind,
    Option.bind_some, hinput, hzeros, List.length_replicate, hinputSize, houtputSize, and_self,
    if_true]
  cases callable.precompile precompile given with
  | none => simp [Test.value?, Scope.truth?]
  | some answer =>
    simp only [Option.bind_some]
    split
    · simp [hother, Test.value?, Scope.truth?]
    · rfl

/-- The routine returns what the precompile answers, and fails where that fails. -/
theorem answer?_pointRoutine (callable : Callable) (name failure : String) (precompile : Precompile)
    {parameters : List String} {words : List Nat} (rest : Scope) (hnodup : parameters.Nodup)
    (hlength : parameters.length = words.length) :
    callable.answer? (parameters.zip (words.map .word) ++ rest)
        (pointRoutine name parameters precompile failure).body =
      (callable.precompile precompile words).bind pairOf? := by
  have hitems := mapM_names [] rest hnodup hlength fun _ _ => rfl
  rw [List.nil_append] at hitems
  have hgiven : Scope.words?
      (("input", .words words) :: (parameters.zip (words.map .word) ++ rest)) "input" =
        some words := by
    simp [Scope.words?]
  have hstep : callable.step? (parameters.zip (words.map .word) ++ rest)
      (.declareItems "input" (parameters.map Term.name)) =
        some (("input", .words words) :: (parameters.zip (words.map .word) ++ rest)) := by
    rw [Callable.step?, hitems]
    rfl
  rw [pointRoutine, callable.answer?_step hstep, answer?_callPrecompile callable hgiven (by decide)
    (by decide) (by decide) precompile (congrArg (32 * ·) hlength) rfl]
  refine congrArg _ (funext fun answer => ?_)
  rcases answer with _ | ⟨x, _ | ⟨y, _ | ⟨z, answer⟩⟩⟩ <;>
    simp [pairOf?, Callable.answer?, Term.value?, Scope.words?]

/-! ## Points of the statement -/

/-- The coordinates of a point as what a routine returns. -/
def pointAnswer (p : G1) : Answer := .pair (coordinates₁ p).1 (coordinates₁ p).2

/-- The cases are tried one after the other, so the one with the index of the parameter answers. -/
theorem answer?_statementCases (callable : Callable) {scope : Scope} (reason : String)
    (points : List G1) {start i : Nat} (h : scope.word? "i" = some (start + i)) :
    callable.answer? scope ((points.zipIdx start).map (fun (point, index) => statementCase point index) ++
        [.revert reason]) =
      points[i]?.map pointAnswer := by
  induction points generalizing start i with
  | nil => rfl
  | cons point points ih =>
    rw [List.zipIdx_cons, List.map_cons, List.cons_append]
    cases i with
    | zero =>
      simp [statementCase, Callable.answer?, Test.value?, Term.value?, h, pointAnswer]
    | succ i =>
      have hrest : scope.word? "i" = some (start + 1 + i) := by
        rw [h]
        congr 1
        omega
      rw [List.getElem?_cons_succ, ← ih hrest]
      simp [statementCase, Callable.answer?, Test.value?, Term.value?, h]

end Contract

end CircuitProof
