import CircuitProof.Proofs.Encoding.DecimalForm

/-!
# The forms of a residue are exact

A word is read exactly if its number is below the modulus, although reading never compares the two:
a number that is not below the modulus is reduced to another one, and that has another word. A text is
read exactly if it is a run of digits of such a number; the limit of a word lies above the modulus and
cuts nothing off. What is written reads back, and what is read is written again without the leading
zeros of its text.
-/

namespace CircuitProof

open WordForm (WordModulus)

theorem head?_trimZeros {s : String} (h : (trimZeros s).toList.head? = some '0') :
    trimZeros s = "0" := by
  cases htrim : s.toList.dropWhile (· = '0') with
  | nil => simp [trimZeros, htrim]
  | cons first rest =>
    have hfirst : first ≠ '0' := by
      simpa [htrim] using List.head?_dropWhile_not (· = '0') s.toList
    simp [trimZeros, htrim, hfirst] at h

namespace Residue

variable {p : Nat} [Modulus p]

theorem exists_ofWord?_iff {word : Bytes} (h : word.length = wordWidth) :
    (∃ a : Residue p, ofWord? word = some a) ↔ ofBigEndian word < p := by
  constructor
  · rintro ⟨a, ha⟩
    rw [(ofWord?_eq_some_iff h).mp ha]
    exact a.lt
  · intro hlt
    exact ⟨⟨ofBigEndian word, hlt⟩, (ofWord?_eq_some_iff h).mpr rfl⟩

/-- A word is read only if writing what was read gives it again. -/
theorem toWord_of_ofWord? {word : Bytes} (h : word.length = wordWidth) {a : Residue p}
    (ha : ofWord? word = some a) : a.toWord = word := by
  rw [toWord, ← (ofWord?_eq_some_iff h).mp ha, ← h, bigEndian_ofBigEndian]

variable [WordModulus p]

/-- Neither a sign nor a blank nor a number from the modulus on is read. -/
theorem exists_ofDecimal?_iff {s : String} :
    (∃ a : Residue p, ofDecimal? s = some a) ↔ DigitRun s ∧ decimalValue s < p := by
  simp only [ofDecimal?_eq_some_iff]
  constructor
  · rintro ⟨a, hrun, hvalue⟩
    exact ⟨hrun, hvalue ▸ a.lt⟩
  · rintro ⟨hrun, hlt⟩
    exact ⟨⟨decimalValue s, hlt⟩, hrun, rfl⟩

/-- What is read is written again without leading zeros. -/
theorem toDecimal_of_ofDecimal? {s : String} {a : Residue p} (h : ofDecimal? s = some a) :
    a.toDecimal = trimZeros s := by
  obtain ⟨hrun, hvalue⟩ := ofDecimal?_eq_some_iff.mp h
  rw [toDecimal, decimalOfWord, ofBigEndian_toWord, ← hvalue, decimal_decimalValue hrun]

/-- A written text is that text without leading zeros, so only that of zero begins with one. -/
theorem toDecimal_eq_zero_of_head? {a : Residue p} (h : a.toDecimal.toList.head? = some '0') :
    a.toDecimal = "0" := by
  have htrim : a.toDecimal = trimZeros a.toDecimal :=
    toDecimal_of_ofDecimal? (ofDecimal?_toDecimal a)
  rw [htrim] at h ⊢
  exact head?_trimZeros h

/-- Both forms of a residue are exact. A word is read exactly if its number is below the modulus;
what is read has that number and is written by that word. A text is read exactly if it is a nonempty
run of digits whose number is below the modulus; what is read has that number and is written by the
text without its leading zeros. What is written reads back, and its text begins with a zero only if
it is that of zero. -/
theorem forms_exact :
    (∀ word : Bytes, word.length = wordWidth →
      ((∃ a : Residue p, ofWord? word = some a) ↔ ofBigEndian word < p) ∧
      ∀ a : Residue p, ofWord? word = some a → a.val = ofBigEndian word ∧ a.toWord = word) ∧
    (∀ s : String,
      ((∃ a : Residue p, ofDecimal? s = some a) ↔ DigitRun s ∧ decimalValue s < p) ∧
      ∀ a : Residue p, ofDecimal? s = some a → a.val = decimalValue s ∧ a.toDecimal = trimZeros s) ∧
    ∀ a : Residue p, ofWord? a.toWord = some a ∧ ofDecimal? a.toDecimal = some a ∧
      (a.toDecimal.toList.head? = some '0' → a.toDecimal = "0") := by
  refine ⟨fun word hlength => ⟨exists_ofWord?_iff hlength, fun a ha => ⟨?_, ?_⟩⟩,
    fun s => ⟨exists_ofDecimal?_iff, fun a ha => ⟨?_, ?_⟩⟩,
    fun a => ⟨ofWord?_toWord a, ofDecimal?_toDecimal a, toDecimal_eq_zero_of_head?⟩⟩
  · exact ((ofWord?_eq_some_iff hlength).mp ha).symm
  · exact toWord_of_ofWord? hlength ha
  · exact (ofDecimal?_eq_some_iff.mp ha).2.symm
  · exact toDecimal_of_ofDecimal? ha

/-- The word of the scalar modulus stands for no scalar but for a base element. Of the texts, one has
leading zeros and one has more digits than any word's. -/
theorem forms_exact_scalarModulus :
    (¬ ∃ a : Scalar, ofWord? (bigEndian wordWidth scalarModulus) = some a) ∧
      (∃ a : Base, ofWord? (bigEndian wordWidth scalarModulus) = some a) ∧
      (∃ a : Scalar, ofDecimal? "007" = some a ∧ a.toDecimal = "7") ∧
      ¬ ∃ a : Base, ofDecimal? (decimal (10 ^ 78)) = some a := by
  have hlength : (bigEndian wordWidth scalarModulus).length = wordWidth := length_bigEndian ..
  obtain ⟨hscalarWord, hscalarText, -⟩ := forms_exact (p := scalarModulus)
  obtain ⟨hbaseWord, hbaseText, -⟩ := forms_exact (p := baseModulus)
  obtain ⟨seven, hseven⟩ := (hscalarText "007").1.mpr (by decide)
  refine ⟨?_, ?_, ⟨seven, hseven, ((hscalarText "007").2 seven hseven).2⟩, ?_⟩
  · rw [(hscalarWord _ hlength).1]
    decide +kernel
  · rw [(hbaseWord _ hlength).1]
    decide +kernel
  · rw [(hbaseText _).1]
    decide +kernel

end Residue

end CircuitProof
