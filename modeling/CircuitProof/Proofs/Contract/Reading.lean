import Mathlib.Data.List.Basic
import CircuitProof.Contract.Verifier
import CircuitProof.Proofs.Contract.Coordinates

/-!
# The key that a contract states

The constants of a contract and the points that its function `ic` returns are read off its text line
by line. As words, in the order in which they appear, they are the word form of the key; so two keys
have one contract if and only if they have one word form.
-/

namespace CircuitProof

open WordForm

namespace Contract

/-- What a line states: the value of a constant, or the point of an index. -/
inductive Entry where
  | constant (name : String) (value : Nat)
  | point (index x y : Nat)
  deriving DecidableEq

namespace Entry

def ofConstant (constant : String × Nat) : Entry := .constant constant.1 constant.2

/-- A point of the statement with its index. -/
def ofPoint (item : G1 × Nat) : Entry :=
  .point item.2 (coordinates₁ item.1).1 (coordinates₁ item.1).2

/-- The name of a constant, the index of a point. -/
def label : Entry → String ⊕ Nat
  | constant name _ => .inl name
  | point index _ _ => .inr index

/-- The numbers as words, the number of points as a count. The moduli belong to no key. -/
def bytes : Entry → Bytes
  | constant name value =>
    if name ∈ moduli.map Prod.fst then []
    else if name = "IC_LENGTH" then writeCount value
    else bigEndian wordWidth value
  | point _ x y => bigEndian wordWidth x ++ bigEndian wordWidth y

end Entry

/-! ## Reading lines -/

/-- Takes a number off the front of a text, with all the digits that are there. -/
def number? (text : List Char) : Option (Nat × List Char) := do
  let n ← ofDecimal? (String.ofList (text.takeWhile Char.isDigit))
  some (n, text.dropWhile Char.isDigit)

def constant? (line : List Char) : Option Entry := do
  let rest ← line.dropPrefix? "    uint256 constant ".toList
  let name := rest.takeWhile (· ≠ ' ')
  let rest ← (rest.dropWhile (· ≠ ' ')).dropPrefix? " = ".toList
  let (value, rest) ← number? rest
  if rest = ";".toList then some (.constant (String.ofList name) value) else none

def point? (line : List Char) : Option Entry := do
  let rest ← line.dropPrefix? "        if (i == ".toList
  let (index, rest) ← number? rest
  let rest ← rest.dropPrefix? ") return (".toList
  let (x, rest) ← number? rest
  let rest ← rest.dropPrefix? ", ".toList
  let (y, rest) ← number? rest
  if rest = ");".toList then some (.point index x y) else none

def stated? (line : List Char) : Option Entry := constant? line <|> point? line

/-- What the lines of a text state, in the order in which they appear. -/
def entries (text : String) : List Entry := (text.toList.splitOn '\n').filterMap stated?

theorem isDigit_of_mem_decimal {n : Nat} {c : Char} (h : c ∈ (decimal n).toList) :
    c.isDigit = true := by
  rw [decimal, Nat.repr, String.toList_ofList] at h
  exact Nat.isDigit_of_mem_toDigits (by decide) (by decide) h

theorem not_mem_decimal {c : Char} (h : c.isDigit = false) (n : Nat) : c ∉ (decimal n).toList :=
  fun hmem => Bool.eq_false_iff.mp h (isDigit_of_mem_decimal hmem)

/-- A run of characters ends where another kind of character follows. -/
theorem span_append {p : Char → Bool} {front rest : List Char} (hfront : ∀ c ∈ front, p c = true)
    (hrest : ∀ c ∈ rest.head?, p c = false) :
    (front ++ rest).takeWhile p = front ∧ (front ++ rest).dropWhile p = rest := by
  rw [List.takeWhile_append_of_pos hfront, List.dropWhile_append_of_pos hfront]
  cases rest with
  | nil => exact ⟨List.append_nil front, rfl⟩
  | cons c rest =>
    have hc : ¬ p c = true := Bool.eq_false_iff.mp (hrest c rfl)
    rw [List.takeWhile_cons_of_neg hc, List.dropWhile_cons_of_neg hc, List.append_nil]
    exact ⟨rfl, rfl⟩

theorem number?_decimal_append (n : Nat) {rest : List Char}
    (h : ∀ c ∈ rest.head?, c.isDigit = false) :
    number? ((decimal n).toList ++ rest) = some (n, rest) := by
  obtain ⟨hdigits, hrest⟩ := span_append (fun _ => isDigit_of_mem_decimal (n := n)) h
  rw [number?, hdigits, hrest, String.ofList_toList, ofDecimal?_decimal]
  rfl

theorem dropPrefix?_append (front rest : List Char) : (front ++ rest).dropPrefix? front = some rest :=
  List.dropPrefix?_append_of_beq rest (beq_self_eq_true front)

theorem toList_constantLine (name : String) (value : Nat) :
    (constantLine name value).toList = "    uint256 constant ".toList ++
      (name.toList ++ (" = ".toList ++ ((decimal value).toList ++ ";".toList))) := by
  have hline : constantLine name value =
      "    uint256 constant " ++ name ++ " = " ++ decimal value ++ ";" := rfl
  rw [hline]
  simp only [String.toList_append, List.append_assoc]

/-- The name ends at the first blank and the number at its last digit. -/
theorem stated?_constantLine {name : String} (hname : ' ' ∉ name.toList) (value : Nat) :
    stated? (constantLine name value).toList = some (.constant name value) := by
  have hname : ∀ c ∈ name.toList, decide (c ≠ ' ') = true := fun c hc =>
    decide_eq_true fun h => hname (h ▸ hc)
  have hrest : ∀ c ∈ (" = ".toList ++ ((decimal value).toList ++ ";".toList)).head?,
      decide (c ≠ ' ') = false := by simp
  obtain ⟨hchars, hrest⟩ := span_append hname hrest
  rw [stated?, constant?, toList_constantLine, dropPrefix?_append]
  simp only [Option.bind_eq_bind, Option.bind_some, hchars, hrest, dropPrefix?_append,
    String.ofList_toList]
  rw [number?_decimal_append value (by simp)]
  simp only [Option.bind_some, if_true]
  rfl

/-- A case of the function `ic`, in characters. -/
theorem toList_statementCase (point : G1) (index : Nat) :
    (statementCase point index).lines.map String.toList =
      ["        if (i == ".toList ++ ((decimal index).toList ++ (") return (".toList ++
        ((decimal (coordinates₁ point).1).toList ++ (", ".toList ++
          ((decimal (coordinates₁ point).2).toList ++ ");".toList)))))] := by
  simp [statementCase, Statement.lines, Statement.lines.margin, Test.text, Term.text, commas]

theorem stated?_case (index x y : Nat) :
    stated? ("        if (i == ".toList ++ ((decimal index).toList ++ (") return (".toList ++
        ((decimal x).toList ++ (", ".toList ++ ((decimal y).toList ++ ");".toList)))))) =
      some (.point index x y) := by
  have hconstant (rest : List Char) : constant? ("        if (i == ".toList ++ rest) = none := by
    simp [constant?, List.dropPrefix?]
  rw [stated?, hconstant]
  simp only [point?, dropPrefix?_append, Option.bind_eq_bind, Option.bind_some]
  rw [number?_decimal_append index (by simp)]
  simp only [dropPrefix?_append, Option.bind_some]
  rw [number?_decimal_append x (by simp)]
  simp only [dropPrefix?_append, Option.bind_some]
  rw [number?_decimal_append y (by simp)]
  simp only [Option.bind_some, if_true]
  rfl

/-! ## Lines of a contract -/

/-- The lines are not broken and state the entries. -/
def Lists (lines : List String) (items : List Entry) : Prop :=
  (∀ line ∈ lines.map String.toList, '\n' ∉ line) ∧
    (lines.map String.toList).filterMap stated? = items

namespace Lists

variable {lines lines' : List String} {items items' : List Entry}

instance : Decidable (Lists lines items) := inferInstanceAs (Decidable (_ ∧ _))

theorem append (h : Lists lines items) (h' : Lists lines' items') :
    Lists (lines ++ lines') (items ++ items') := by
  rw [Lists, List.map_append, List.forall_mem_append, List.filterMap_append, h.2, h'.2]
  exact ⟨⟨h.1, h'.1⟩, rfl⟩

theorem of_append (h : Lists (lines ++ lines') []) : Lists lines [] ∧ Lists lines' [] := by
  rw [Lists, List.map_append, List.forall_mem_append, List.filterMap_append,
    List.append_eq_nil_iff] at h
  exact ⟨⟨h.1.1, h.2.1⟩, h.1.2, h.2.2⟩

theorem flatMap {α : Type} {f : α → List String} {g : α → List Entry} (h : ∀ a, Lists (f a) (g a))
    (as : List α) : Lists (as.flatMap f) (as.flatMap g) := by
  induction as with
  | nil => exact ⟨nofun, rfl⟩
  | cons a as ih => exact (h a).append ih

/-- Lines that are set apart by empty ones. -/
theorem intercalate {groups : List (List String)} {items : List (List Entry)}
    (h : List.Forall₂ Lists groups items) : Lists (List.intercalate [""] groups) items.flatten := by
  have hempty : Lists [""] [] := by decide +kernel
  induction h with
  | nil => exact ⟨nofun, rfl⟩
  | @cons group entries groups items hfirst hrest ih =>
    cases hrest with
    | nil =>
      rw [List.intercalate_singleton, List.flatten_singleton]
      exact hfirst
    | cons =>
      rw [List.intercalate_cons_cons, List.flatten_cons]
      simpa only [List.append_nil] using (hfirst.append hempty).append ih

/-- The text of the lines states what they state. -/
theorem entries_join (h : Lists lines items) :
    entries (String.join (lines.map (· ++ "\n"))) = items := by
  obtain ⟨hplain, rfl⟩ := h
  have htext : (String.join (lines.map (· ++ "\n"))).toList =
      (lines.map String.toList).flatMap (· ++ ['\n']) := by
    simp [List.flatMap_map]
  rw [entries, htext]
  generalize lines.map String.toList = chars at hplain
  induction chars with
  | nil => decide +kernel
  | cons line rest ih =>
    obtain ⟨hline, hrest⟩ := List.forall_mem_cons.mp hplain
    rw [List.flatMap_cons, List.append_assoc, List.singleton_append,
      List.splitOn_append_cons_self_of_not_mem hline, List.filterMap_cons, List.filterMap_cons,
      ih hrest]

end Lists

theorem lists_constants {constants : List (String × Nat)}
    (h : ∀ name ∈ constants.map Prod.fst, ' ' ∉ name.toList ∧ '\n' ∉ name.toList) :
    Lists (constants.map fun (name, value) => constantLine name value)
      (constants.map Entry.ofConstant) := by
  induction constants with
  | nil => exact ⟨nofun, rfl⟩
  | cons constant constants ih =>
    obtain ⟨⟨hblank, hbreak⟩, hrest⟩ := List.forall_mem_cons.mp h
    obtain ⟨name, value⟩ := constant
    have hline : Lists [constantLine name value] [.constant name value] := by
      constructor
      · rw [List.map_singleton, List.forall_mem_singleton, toList_constantLine]
        simpa using ⟨hbreak, not_mem_decimal (by decide) value⟩
      · rw [List.map_singleton, List.filterMap_cons, stated?_constantLine hblank]
        rfl
    exact hline.append (ih hrest)

theorem lists_statementCase (point : G1) (index : Nat) :
    Lists (statementCase point index).lines [.ofPoint (point, index)] := by
  constructor
  · rw [toList_statementCase, List.forall_mem_singleton]
    have hbreak : '\n'.isDigit = false := by decide
    simp [not_mem_decimal hbreak]
  · rw [toList_statementCase, List.filterMap_cons, stated?_case]
    rfl

theorem lists_statementRoutine (points : List G1) :
    Lists (statementRoutine points).lines (points.zipIdx.map Entry.ofPoint) := by
  have hlines : (statementRoutine points).lines = (statementRoutine points).heading ++
      (points.zipIdx.flatMap (fun item => (statementCase item.1 item.2).lines) ++
        ["        revert(\"verifier-ic-index\");", "    \x7d"]) := by
    rw [Routine.lines, statementRoutine, List.flatMap_append, List.flatMap_map, List.append_assoc,
      List.append_assoc]
    rfl
  have hheading : Lists (statementRoutine points).heading [] := by
    change Lists (statementRoutine []).heading []
    decide +kernel
  have hcases := Lists.flatMap (fun a : G1 × Nat => lists_statementCase a.1 a.2) points.zipIdx
  have hend : Lists ["        revert(\"verifier-ic-index\");", "    \x7d"] [] := by decide +kernel
  rw [hlines, List.map_eq_flatMap]
  simpa only [List.nil_append, List.append_nil] using hheading.append (hcases.append hend)

/-- The functions that do not depend on the key state nothing. -/
theorem lists_routines :
    Lists (verifyRoutine.lines ++ (addRoutine.lines ++ multiplyRoutine.lines)) [] := by
  -- the lines are spelled out first: the kernel is slow at taking joined texts apart
  simp only [Lists, verifyRoutine, accumulateStatements, pairingStatements, pairingInput, names₂,
    addRoutine, multiplyRoutine, pointRoutine, Routine.lines, Routine.heading, Routine.parameterTexts,
    Routine.modifierTexts, Statement.lines, Statement.lines.margin, Step.lines, Call.text, Test.text,
    Term.text, Term.text.operand, Term.isOperation, Kind.text, sizeText, Precompile.address, commas,
    commaLines, decimal, Nat.repr, String.toList_append, String.intercalate_cons_cons,
    String.intercalate_singleton, String.toList_ofList, String.reduceToList, List.map_cons,
    List.map_nil, List.cons_append, List.nil_append, List.flatMap_cons, List.flatMap_nil,
    List.zipIdx_cons, List.zipIdx_nil]
  decide +kernel

/-! ## The key -/

/-- The names of the constants that belong to the key's points. -/
def pointNames : List String :=
  ["ALPHA_X", "ALPHA_Y"] ++ names₂ "BETA" ++ names₂ "GAMMA" ++ names₂ "DELTA"

/-- The numbers of the key's points outside its statement. -/
def pointWords (vk : VerifyingKey G1 G2) : List Nat :=
  answer vk.alpha ++ coordinates₂ vk.beta ++ coordinates₂ vk.gamma ++ coordinates₂ vk.delta

theorem keyConstants_eq_zip (vk : VerifyingKey G1 G2) :
    keyConstants vk = pointNames.zip (pointWords vk) := by
  obtain ⟨_, _, _, _, hbeta⟩ := exists_coordinates₂ vk.beta
  obtain ⟨_, _, _, _, hgamma⟩ := exists_coordinates₂ vk.gamma
  obtain ⟨_, _, _, _, hdelta⟩ := exists_coordinates₂ vk.delta
  rw [keyConstants, pointWords, hbeta, hgamma, hdelta]
  rfl

theorem length_pointWords (vk : VerifyingKey G1 G2) : (pointWords vk).length = pointNames.length := by
  obtain ⟨_, _, _, _, hbeta⟩ := exists_coordinates₂ vk.beta
  obtain ⟨_, _, _, _, hgamma⟩ := exists_coordinates₂ vk.gamma
  obtain ⟨_, _, _, _, hdelta⟩ := exists_coordinates₂ vk.delta
  rw [pointWords, hbeta, hgamma, hdelta]
  rfl

/-- The labels do not depend on the key. -/
theorem names_keyConstants (vk : VerifyingKey G1 G2) :
    (keyConstants vk).map Prod.fst = pointNames := by
  rw [keyConstants_eq_zip, List.map_fst_zip (Nat.le_of_eq (length_pointWords vk).symm)]

def keyEntries (vk : VerifyingKey G1 G2) : List Entry :=
  (moduli ++ keyConstants vk ++ [("IC_LENGTH", vk.statement.length)]).map .ofConstant ++
    vk.statement.zipIdx.map .ofPoint

/-- The other lines of the contract state nothing. -/
theorem lists_verifier (vk : VerifyingKey G1 G2) : Lists (verifier vk).lines (keyEntries vk) := by
  have hnames : ∀ name ∈ ["PRIME_Q", "SNARK_SCALAR_FIELD"] ++ pointNames ++ ["IC_LENGTH"],
      ' ' ∉ name.toList ∧ '\n' ∉ name.toList := by
    simp [pointNames, names₂]
  rw [List.forall_mem_append, List.forall_mem_append] at hnames
  obtain ⟨⟨hmoduli, hpoints⟩, hlength⟩ := hnames
  have hmembers : List.Forall₂ Lists (verifier vk).members
      [moduli.map .ofConstant, (keyConstants vk).map .ofConstant,
        [.ofConstant ("IC_LENGTH", vk.statement.length)], vk.statement.zipIdx.map .ofPoint,
        [], [], []] := by
    obtain ⟨hverify, hrest⟩ := lists_routines.of_append
    obtain ⟨hadd, hmultiply⟩ := hrest.of_append
    exact .cons (lists_constants hmoduli) (.cons (lists_constants (names_keyConstants vk ▸ hpoints))
      (.cons (lists_constants hlength) (.cons (lists_statementRoutine _)
      (.cons hverify (.cons hadd (.cons hmultiply .nil))))))
  have hstart : Lists ["// SPDX-License-Identifier: MIT", "pragma solidity ^0.8.0;", "",
      "/// " ++ (verifier vk).title, "contract " ++ (verifier vk).name ++ " \x7b"] [] := by
    change Lists ["// SPDX-License-Identifier: MIT", "pragma solidity ^0.8.0;", "",
      "/// Groth16 verifier over BN254.", "contract Verifier \x7b"] []
    decide +kernel
  have hend : Lists ["\x7d"] [] := by decide +kernel
  rw [Code.lines]
  have h := (hstart.append (Lists.intercalate hmembers)).append hend
  simpa [keyEntries] using h

theorem entries_text (vk : VerifyingKey G1 G2) : entries (text vk) = keyEntries vk :=
  (lists_verifier vk).entries_join

theorem labels_keyEntries (vk : VerifyingKey G1 G2) :
    (keyEntries vk).map Entry.label =
      (["PRIME_Q", "SNARK_SCALAR_FIELD"] ++ pointNames ++ ["IC_LENGTH"]).map .inl ++
        (List.range vk.statement.length).map .inr := by
  have hconstants (constants : List (String × Nat)) :
      (constants.map Entry.ofConstant).map Entry.label = (constants.map Prod.fst).map .inl := by
    rw [List.map_map, List.map_map]
    rfl
  have hpoints : (vk.statement.zipIdx.map Entry.ofPoint).map Entry.label =
      (vk.statement.zipIdx.map Prod.snd).map .inr := by
    rw [List.map_map, List.map_map]
    rfl
  rw [keyEntries, List.map_append, hconstants, hpoints, List.map_append (f := Prod.fst),
    List.map_append (f := Prod.fst), names_keyConstants, List.zipIdx_map_snd, List.range_eq_range']
  rfl

/-! ## The word form of the key -/

def statementWords (vk : VerifyingKey G1 G2) : List Nat := vk.statement.flatMap answer

/-- The words of the points, with the number of points of the statement in front of these. -/
theorem write_eq_words (vk : VerifyingKey G1 G2) :
    write vk = (pointWords vk).flatMap (bigEndian wordWidth) ++
      (writeCount vk.statement.length ++ (statementWords vk).flatMap (bigEndian wordWidth)) := by
  have hanswer : (write : G1 → Bytes) = fun p => (answer p).flatMap (bigEndian wordWidth) :=
    funext write_eq_answer
  change write vk.alpha ++ write vk.beta ++ write vk.gamma ++ write vk.delta ++
    (writeCount vk.statement.length ++ vk.statement.flatMap write) = _
  rw [pointWords, statementWords, List.flatMap_append, List.flatMap_append, List.flatMap_append,
    List.flatMap_assoc, ← hanswer, write_eq_answer, write_eq_coordinates₂, write_eq_coordinates₂,
    write_eq_coordinates₂]

theorem bytes_point (index : Nat) (point : G1) :
    Entry.bytes (.ofPoint (point, index)) = (answer point).flatMap (bigEndian wordWidth) := by
  simp [Entry.ofPoint, Entry.bytes, answer]

theorem bytes_points (points : List G1) (start : Nat) :
    ((points.zipIdx start).map Entry.ofPoint).flatMap Entry.bytes =
      (points.flatMap answer).flatMap (bigEndian wordWidth) := by
  induction points generalizing start with
  | nil => rfl
  | cons point points ih =>
    rw [List.zipIdx_cons, List.map_cons, List.flatMap_cons, List.flatMap_cons, List.flatMap_append,
      ih, bytes_point]

theorem bytes_constants {names : List String} {values : List Nat}
    (h : ∀ name ∈ names, name ∉ moduli.map Prod.fst ∧ name ≠ "IC_LENGTH")
    (hlength : values.length = names.length) :
    ((names.zip values).map Entry.ofConstant).flatMap Entry.bytes =
      values.flatMap (bigEndian wordWidth) := by
  induction names generalizing values with
  | nil => rw [List.length_eq_zero_iff.mp hlength]; rfl
  | cons name names ih =>
    obtain ⟨⟨hmodulus, hname⟩, hnames⟩ := List.forall_mem_cons.mp h
    cases values with
    | nil => cases hlength
    | cons value values =>
      rw [List.zip_cons_cons, List.map_cons, List.flatMap_cons, List.flatMap_cons,
        ih hnames (Nat.succ.inj hlength), Entry.ofConstant, Entry.bytes, if_neg hmodulus,
        if_neg hname]

/-- The constants stand in the order of the word form. -/
theorem bytes_keyEntries (vk : VerifyingKey G1 G2) :
    (keyEntries vk).flatMap Entry.bytes = write vk := by
  have hmoduli : (moduli.map Entry.ofConstant).flatMap Entry.bytes = [] := by
    simp [moduli, Entry.ofConstant, Entry.bytes]
  have hcount : Entry.bytes (.ofConstant ("IC_LENGTH", vk.statement.length)) =
      writeCount vk.statement.length := by
    simp [moduli, Entry.ofConstant, Entry.bytes]
  have hnames : ∀ name ∈ pointNames, name ∉ moduli.map Prod.fst ∧ name ≠ "IC_LENGTH" := by
    simp [pointNames, names₂, moduli]
  rw [keyEntries, keyConstants_eq_zip, List.map_append, List.map_append, List.flatMap_append,
    List.flatMap_append, List.flatMap_append, hmoduli, bytes_constants hnames (length_pointWords vk),
    bytes_points, List.map_singleton, List.flatMap_singleton, hcount, write_eq_words, statementWords,
    List.nil_append, List.append_assoc]

/-! ## Keys with one contract -/

theorem pointWords_lt (vk : VerifyingKey G1 G2) : ∀ n ∈ pointWords vk, n < Nat.pow 256 wordWidth := by
  have hfits : baseModulus ≤ Nat.pow 256 wordWidth := WordModulus.le
  intro n hn
  simp only [pointWords, List.mem_append] at hn
  obtain ((h | h) | h) | h := hn
  · exact Nat.lt_of_lt_of_le (answer_lt _ n h) hfits
  all_goals exact Nat.lt_of_lt_of_le (coordinates₂_lt _ n h) hfits

theorem statementWords_lt (vk : VerifyingKey G1 G2) :
    ∀ n ∈ statementWords vk, n < Nat.pow 256 wordWidth := by
  intro n hn
  obtain ⟨point, -, h⟩ := List.mem_flatMap.mp hn
  exact Nat.lt_of_lt_of_le (answer_lt point n h) WordModulus.le

/-- Keys with one word form have the same words for their points. -/
theorem words_inj {vk vk' : VerifyingKey G1 G2} (h : write vk = write vk') :
    pointWords vk = pointWords vk' ∧ statementWords vk = statementWords vk' := by
  rw [write_eq_words, write_eq_words] at h
  have hpoints : (pointWords vk).length = (pointWords vk').length :=
    (length_pointWords vk).trans (length_pointWords vk').symm
  obtain ⟨hpointBytes, h⟩ := List.append_inj h (by simp [hpoints])
  obtain ⟨-, hbytes⟩ := List.append_inj h (by simp [writeCount])
  have hstatement : (statementWords vk).length = (statementWords vk').length := by
    have hwords : (statementWords vk).length * wordWidth =
        (statementWords vk').length * wordWidth := by
      simpa using congrArg List.length hbytes
    exact Nat.eq_of_mul_eq_mul_right (by decide) hwords
  exact ⟨(flatMap_bigEndian_inj hpoints (pointWords_lt vk) (pointWords_lt vk')).mp hpointBytes,
    (flatMap_bigEndian_inj hstatement (statementWords_lt vk) (statementWords_lt vk')).mp hbytes⟩

theorem coordinates_of_answers {ps qs : List G1} (h : ps.flatMap answer = qs.flatMap answer) :
    ps.map coordinates₁ = qs.map coordinates₁ := by
  induction ps generalizing qs with
  | nil =>
    cases qs with
    | nil => rfl
    | cons => simp [answer] at h
  | cons p ps ih =>
    cases qs with
    | nil => simp [answer] at h
    | cons q qs =>
      simp only [List.flatMap_cons, answer, List.cons_append, List.nil_append, List.cons.injEq] at h
      rw [List.map_cons, List.map_cons, ih h.2.2, Prod.ext h.1 h.2.1]

/-- The function `ic` depends on nothing but the coordinates of the points. -/
theorem statementRoutine_congr {ps qs : List G1} (h : ps.map coordinates₁ = qs.map coordinates₁) :
    statementRoutine ps = statementRoutine qs := by
  have hcases (points : List G1) :
      points.zipIdx.map (fun item => statementCase item.1 item.2) =
        (points.map coordinates₁).zipIdx.map fun item => .returnPairIf
          (.equal (.name "i") (.number item.2)) (.number item.1.1) (.number item.1.2) := by
    rw [List.zipIdx_map, List.map_map]
    rfl
  rw [statementRoutine, hcases, h, ← hcases]
  rfl

/-- The contract's text depends on nothing but the word form. -/
theorem verifier_eq_of_write_eq {vk vk' : VerifyingKey G1 G2} (h : write vk = write vk') :
    verifier vk = verifier vk' := by
  obtain ⟨hpoints, hstatement⟩ := words_inj h
  have hcoordinates := coordinates_of_answers hstatement
  have hlength : vk.statement.length = vk'.statement.length := by
    simpa using congrArg List.length hcoordinates
  rw [verifier, keyConstants_eq_zip, hpoints, ← keyConstants_eq_zip, hlength,
    statementRoutine_congr hcoordinates]
  rfl

/-- The text of the contract states the numbers of the key in the order of the word form: it can be
read off the text, and keys have the same contract exactly if they have the same word form. -/
theorem contract_states_key (vk : VerifyingKey G1 G2) :
    (entries (text vk)).map Entry.label =
      ["PRIME_Q", "SNARK_SCALAR_FIELD", "ALPHA_X", "ALPHA_Y", "BETA_X1", "BETA_X0", "BETA_Y1",
        "BETA_Y0", "GAMMA_X1", "GAMMA_X0", "GAMMA_Y1", "GAMMA_Y0", "DELTA_X1", "DELTA_X0", "DELTA_Y1",
        "DELTA_Y0", "IC_LENGTH"].map .inl ++ (List.range vk.statement.length).map .inr ∧
    (entries (text vk)).flatMap Entry.bytes = write vk ∧
    ∀ vk', text vk = text vk' ↔ write vk = write vk' := by
  refine ⟨?_, ?_, fun vk' => ⟨fun h => ?_, fun h => ?_⟩⟩
  · rw [entries_text, labels_keyEntries]
    rfl
  · rw [entries_text, bytes_keyEntries]
  · rw [← bytes_keyEntries vk, ← bytes_keyEntries vk', ← entries_text, ← entries_text, h]
  · rw [text, text, verifier_eq_of_write_eq h]

end Contract
end CircuitProof
