import CircuitProof.Proofs.Encoding.ProofText
import CircuitProof.Proofs.Field.Decimal

/-!
# The decimal form is exact

A text of a proof is read in two layers: its words first, all of them, and then the points in the
bytes of the words. So the first text that is no word decides the error, whatever the points are, and
otherwise the bytes decide. What is accepted differs from what is written by leading zeros only.
-/

namespace CircuitProof

open WordForm (WordModulus)

/-! ## Words -/

/-- A run of digits whose number takes no more than a word. -/
def WordText (s : String) : Prop := DigitRun s ∧ decimalValue s < 2 ^ 256

instance (s : String) : Decidable (WordText s) := inferInstanceAs (Decidable (_ ∧ _))

/-- The 32-byte big-endian word of the number of a run of digits. -/
def wordOf (s : String) : Bytes := bigEndian wordWidth (decimalValue s)

theorem length_wordOf (s : String) : (wordOf s).length = wordWidth := length_bigEndian ..

theorem pow_wordWidth : Nat.pow 256 wordWidth = 2 ^ 256 := rfl

theorem wordOfDecimal?_of_wordText {s : String} (h : WordText s) :
    wordOfDecimal? s = some (wordOf s) := by
  obtain ⟨hrun, hlt⟩ := h
  rw [wordOfDecimal?, ofDecimal?_eq_some_iff.mpr ⟨hrun, rfl⟩]
  exact if_pos hlt

theorem wordOfDecimal?_eq_none_iff {s : String} : wordOfDecimal? s = none ↔ ¬ WordText s := by
  refine ⟨fun hnone h => ?_, fun h => ?_⟩
  · rw [wordOfDecimal?_of_wordText h] at hnone
    cases hnone
  · rw [wordOfDecimal?]
    cases hread : ofDecimal? s with
    | none => rfl
    | some n =>
      obtain ⟨hrun, rfl⟩ := ofDecimal?_eq_some_iff.mp hread
      exact if_neg fun hlt => h ⟨hrun, hlt⟩

/-- Written again, a word has lost the leading zeros of its text. -/
theorem decimalOfWord_wordOf {s : String} (h : WordText s) :
    decimalOfWord (wordOf s) = trimZeros s := by
  rw [decimalOfWord, wordOf, ofBigEndian_bigEndian, pow_wordWidth, Nat.mod_eq_of_lt h.2,
    decimal_decimalValue h.1]

/-- Any run of digits is read, leading zeros included, as long as its number is below the modulus.
-/
theorem Residue.ofDecimal?_eq_some_iff {p : Nat} [Modulus p] [WordModulus p] {s : String}
    {x : Residue p} : ofDecimal? s = some x ↔ DigitRun s ∧ decimalValue s = x.val := by
  have hfits : x.val < 2 ^ 256 := Nat.lt_of_lt_of_le x.lt WordModulus.le
  rw [ofDecimal?, Option.bind_eq_some_iff]
  constructor
  · rintro ⟨word, hword, hx⟩
    have h : WordText s := by
      by_contra hnone
      rw [wordOfDecimal?_eq_none_iff.mpr hnone] at hword
      cases hword
    obtain rfl : wordOf s = word := Option.some.inj ((wordOfDecimal?_of_wordText h).symm.trans hword)
    rw [ofWord?_eq_some_iff (length_wordOf s), wordOf, ofBigEndian_bigEndian, pow_wordWidth,
      Nat.mod_eq_of_lt h.2] at hx
    exact ⟨h.1, hx⟩
  · rintro ⟨hrun, hvalue⟩
    refine ⟨_, wordOfDecimal?_of_wordText ⟨hrun, hvalue ▸ hfits⟩, ?_⟩
    rw [ofWord?_eq_some_iff (length_wordOf s), wordOf, ofBigEndian_bigEndian, pow_wordWidth, hvalue,
      Nat.mod_eq_of_lt hfits]

/-! ## Inputs -/

/-- The inputs of a list of texts are the numbers of its runs of digits. -/
theorem ofInputText_eq_ok_iff {texts : List String} {inputs : List Scalar} :
    ofInputText texts = .ok inputs ↔
      List.Forall₂ (fun s (x : Scalar) => DigitRun s ∧ decimalValue s = x.val) texts inputs := by
  simp only [← Residue.ofDecimal?_eq_some_iff]
  induction texts generalizing inputs with
  | nil => simp [ofInputText, eq_comm]
  | cons s rest ih =>
    simp only [ofInputText, List.forall₂_cons_left_iff, ← ih]
    cases (Residue.ofDecimal? s : Option Scalar) with
    | none => simp
    | some x => cases ofInputText rest <;> simp [Except.map, eq_comm]

/-- A list is accepted if each of its texts is a run of digits whose number is below the modulus. -/
theorem exists_ofInputText_iff {texts : List String} : (∃ inputs, ofInputText texts = .ok inputs) ↔
    ∀ s ∈ texts, DigitRun s ∧ decimalValue s < scalarModulus := by
  simp only [ofInputText_eq_ok_iff]
  constructor
  · rintro ⟨inputs, h⟩
    induction h with
    | nil => simp
    | cons hs _ ih => exact List.forall_mem_cons.mpr ⟨⟨hs.1, hs.2 ▸ Residue.lt _⟩, ih⟩
  · intro h
    refine ⟨texts.map fun s => Residue.ofNat (decimalValue s), ?_⟩
    rw [List.forall₂_map_right_iff, List.forall₂_same]
    intro s hs
    obtain ⟨hrun, hlt⟩ := h s hs
    exact ⟨hrun, (Nat.mod_eq_of_lt hlt).symm⟩

/-! ## Proofs -/

namespace ProofText

theorem bytesOfWords_of_wordText {texts : List String} (h : ∀ s ∈ texts, WordText s) :
    bytesOfWords texts = .ok (texts.flatMap wordOf) := by
  induction texts with
  | nil => rfl
  | cons s rest ih =>
    obtain ⟨hs, hrest⟩ := List.forall_mem_cons.mp h
    rw [bytesOfWords, wordOfDecimal?_of_wordText hs]
    dsimp only
    rw [ih hrest]
    rfl

/-- The first text that is no word is reported. -/
theorem bytesOfWords_of_not_wordText {before after : List String} {s : String}
    (h : ∀ x ∈ before, WordText x) (hs : ¬ WordText s) :
    bytesOfWords (before ++ s :: after) = .error (.invalidDecimal s) := by
  induction before with
  | nil =>
    rw [List.nil_append, bytesOfWords, wordOfDecimal?_eq_none_iff.mpr hs]
  | cons x before ih =>
    obtain ⟨hx, hbefore⟩ := List.forall_mem_cons.mp h
    rw [List.cons_append, bytesOfWords, wordOfDecimal?_of_wordText hx]
    dsimp only
    rw [ih hbefore]
    rfl

theorem wordAt_zero {word : Bytes} (h : word.length = wordWidth) (rest : Bytes) :
    wordAt (word ++ rest) 0 = decimalOfWord word := by
  rw [wordAt, Nat.zero_mul, List.drop_zero, List.take_left' h]

theorem wordAt_succ {word : Bytes} (h : word.length = wordWidth) (rest : Bytes) (index : Nat) :
    wordAt (word ++ rest) (index + 1) = wordAt rest index := by
  rw [wordAt, wordAt, Nat.succ_mul, Nat.add_comm, ← List.drop_drop, List.drop_left' h]

/-- Words that are read and written again have lost the leading zeros of their texts. -/
theorem wordAt_flatMap_wordOf {texts : List String} (h : ∀ s ∈ texts, WordText s) :
    (List.range texts.length).map (wordAt (texts.flatMap wordOf)) = texts.map trimZeros := by
  induction texts with
  | nil => rfl
  | cons s rest ih =>
    obtain ⟨hs, hrest⟩ := List.forall_mem_cons.mp h
    have hlength : (wordOf s).length = wordWidth := length_wordOf s
    rw [List.length_cons, List.range_succ_eq_map, List.map_cons, List.map_map, List.flatMap_cons,
      List.map_cons, wordAt_zero hlength, decimalOfWord_wordOf hs, ← ih hrest]
    exact congrArg _ (List.map_congr_left fun i _ => wordAt_succ hlength _ i)

/-- The text with a function applied to each of its words. -/
def map (f : String → String) (t : ProofText) : ProofText where
  a := (f t.a.1, f t.a.2)
  b := ((f t.b.1.1, f t.b.1.2), (f t.b.2.1, f t.b.2.2))
  c := (f t.c.1, f t.c.2)

theorem words_map (f : String → String) (t : ProofText) : (t.map f).words = t.words.map f := rfl

theorem words_injective : Function.Injective words := by
  rintro ⟨⟨a, a'⟩, ⟨⟨b, b'⟩, ⟨x, x'⟩⟩, ⟨c, c'⟩⟩ ⟨⟨d, d'⟩, ⟨⟨e, e'⟩, ⟨y, y'⟩⟩, ⟨f, f'⟩⟩ h
  simp only [words, List.cons.injEq, and_true] at h
  simp only [h]

theorem toProof_of_wordText {t : ProofText} (h : ∀ s ∈ t.words, WordText s) :
    (t.toProof : Except ArtifactError (Proof G1 G2)) = WordForm.decode (t.words.flatMap wordOf) := by
  rw [toProof, bytesOfWords_of_wordText h]

/-- The first text that is no word is reported, whatever the words before it stand for. -/
theorem exists_toProof_eq_error {t : ProofText} (h : ∃ s ∈ t.words, ¬ WordText s) :
    ∃ before s after, t.words = before ++ s :: after ∧ (∀ x ∈ before, WordText x) ∧ ¬ WordText s ∧
      (t.toProof : Except ArtifactError (Proof G1 G2)) = .error (.invalidDecimal s) := by
  obtain ⟨s, hfound⟩ : ∃ s, t.words.find? (fun s => !decide (WordText s)) = some s := by
    rw [← Option.isSome_iff_exists, List.find?_isSome]
    simpa using h
  obtain ⟨hs, before, after, hwords, hbefore⟩ := List.find?_eq_some_iff_append.mp hfound
  have hs : ¬ WordText s := by simpa using hs
  have hbefore : ∀ x ∈ before, WordText x := by simpa using hbefore
  refine ⟨before, s, after, hwords, hbefore, hs, ?_⟩
  rw [toProof, hwords, bytesOfWords_of_not_wordText hbefore hs]

/-- Every word is a decimal text, and together they are the word form of the proof. -/
theorem toProof_eq_ok_iff {t : ProofText} {proof : Proof G1 G2} : t.toProof = .ok proof ↔
    (∀ s ∈ t.words, WordText s) ∧ WordForm.decode (t.words.flatMap wordOf) = .ok proof := by
  by_cases h : ∀ s ∈ t.words, WordText s
  · rw [toProof_of_wordText h, and_iff_right h]
  · obtain ⟨-, s, -, -, -, -, herror⟩ := exists_toProof_eq_error (by simpa using h)
    rw [herror]
    exact iff_of_false nofun fun hand => h hand.1

/-- What is read and written again has lost the leading zeros of its words. -/
theorem ofProof_of_toProof {t : ProofText} {proof : Proof G1 G2} (h : t.toProof = .ok proof) :
    ofProof proof = t.map trimZeros := by
  obtain ⟨hwords, hdecode⟩ := toProof_eq_ok_iff.mp h
  obtain ⟨hbytes, -⟩ := (WordForm.Exact.oneForm _ proof).mp hdecode
  apply words_injective
  rw [words_map, ← wordAt_flatMap_wordOf hwords, hbytes]
  rfl

end ProofText

/-! ## Both forms -/

/-- The text of a proof and the texts of inputs. A text is read as a proof exactly if its eight words
are words and their bytes are the word form of the proof; otherwise the first text that is no word
decides the error, or else the bytes. Writing and reading gives a proof of members and any inputs
back; reading and writing takes the leading zeros off. A list of texts is read as inputs exactly if
each is a run of digits whose number is below the scalar modulus. -/
theorem decimalForm_exact (t : ProofText) (proof : Proof G1 G2) (inputs : List Scalar)
    (texts : List String) :
    (t.toProof = .ok proof ↔
      (∀ s ∈ t.words, WordText s) ∧ WordForm.decode (t.words.flatMap wordOf) = .ok proof) ∧
    ((∃ s ∈ t.words, ¬ WordText s) → ∃ before s after, t.words = before ++ s :: after ∧
      (∀ x ∈ before, WordText x) ∧ ¬ WordText s ∧
      (t.toProof : Except ArtifactError (Proof G1 G2)) = .error (.invalidDecimal s)) ∧
    ((∀ s ∈ t.words, WordText s) → (t.toProof : Except ArtifactError (Proof G1 G2)) =
      WordForm.decode (t.words.flatMap wordOf)) ∧
    (Storable.Members proof → (ProofText.ofProof proof).toProof = .ok proof) ∧
    (t.toProof = .ok proof → ProofText.ofProof proof = t.map trimZeros) ∧
    ofInputText (inputText inputs) = .ok inputs ∧
    ((∃ xs, ofInputText texts = .ok xs) ↔
      ∀ s ∈ texts, DigitRun s ∧ decimalValue s < scalarModulus) :=
  ⟨ProofText.toProof_eq_ok_iff, ProofText.exists_toProof_eq_error, ProofText.toProof_of_wordText,
    ProofText.toProof_ofProof, ProofText.ofProof_of_toProof, ofInputText_inputText inputs,
    exists_ofInputText_iff⟩

/-- The generator of the first group with leading zeros, and infinity twice. -/
def paddedText : ProofText := ⟨("01", "002"), (("0", "0"), ("0", "0")), ("000", "0")⟩

/-- Two words that are no point of the curve, and a letter in the last word. -/
def brokenText : ProofText := ⟨("1", "3"), (("0", "0"), ("0", "0")), ("0", "x")⟩

theorem decimalForm_exact_paddedText :
    paddedText.toProof = .ok (⟨G1.generator, .infinity, .infinity⟩ : Proof G1 G2) ∧
      ProofText.ofProof (⟨G1.generator, .infinity, .infinity⟩ : Proof G1 G2) =
        ⟨("1", "2"), (("0", "0"), ("0", "0")), ("0", "0")⟩ ∧
      (brokenText.toProof : Except ArtifactError (Proof G1 G2)) = .error (.invalidDecimal "x") ∧
      ∃ xs, ofInputText ["007"] = .ok xs := by
  obtain ⟨hok, -, -, -, htrim, -, hinputs⟩ :=
    decimalForm_exact paddedText ⟨G1.generator, .infinity, .infinity⟩ [] ["007"]
  have hread := hok.mpr ⟨by decide, by decide +kernel⟩
  obtain ⟨-, herror, -⟩ := decimalForm_exact brokenText ⟨.infinity, .infinity, .infinity⟩ [] []
  obtain ⟨before, s, after, hwords, -, hs, hreported⟩ := herror ⟨"x", by decide, by decide⟩
  have honly : ∀ s ∈ brokenText.words, ¬ WordText s → s = "x" := by decide
  have hlast : s = "x" := honly s (hwords ▸ List.mem_append_right _ List.mem_cons_self) hs
  rw [hlast] at hreported
  exact ⟨hread, htrim hread, hreported, hinputs.mpr (by decide)⟩

end CircuitProof
