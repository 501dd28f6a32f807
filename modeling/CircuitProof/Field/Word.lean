import CircuitProof.Bytes.Endian
import CircuitProof.Field.Residue

/-!
# Residues as words and as decimal text

A residue is written as one 32-byte big-endian word or as the decimal digits of its least member.
Reading a word reduces its number and refuses it unless the residue is written by the same word, so a
residue has exactly one word. A decimal text is read through its word and may carry leading zeros.
-/

namespace CircuitProof

/-! ## Decimal text

A number is written with the fewest digits. Reading takes any nonempty run of ASCII digits, leading
zeros included, and nothing else: no sign, no blank, no separator.
-/

def decimal (n : Nat) : String := n.repr

/-- The number written by a nonempty run of ASCII digits. -/
def ofDecimal? (s : String) : Option Nat :=
  let digits := s.toList
  if digits ≠ [] ∧ digits.all Char.isDigit then some (Nat.ofDigitChars 10 digits 0) else none

theorem ofDecimal?_decimal (n : Nat) : ofDecimal? (decimal n) = some n := by
  have hne : Nat.toDigits 10 n ≠ [] := Nat.toDigits_ne_nil
  have hall : (Nat.toDigits 10 n).all Char.isDigit = true := by
    simp only [List.all_eq_true]
    exact fun c hc => Nat.isDigit_of_mem_toDigits (by decide) (by decide) hc
  simp [ofDecimal?, decimal, Nat.repr, hne, hall, Nat.ofDigitChars_toDigits]

/-! ## Words -/

def wordWidth : Nat := 32

/-- The word of a decimal text: a nonempty run of digits whose number is below `2 ^ 256`. -/
def wordOfDecimal? (s : String) : Option Bytes :=
  match ofDecimal? s with
  | some n => if n < Nat.pow 256 wordWidth then some (bigEndian wordWidth n) else none
  | none => none

def decimalOfWord (word : Bytes) : String := decimal (ofBigEndian word)

namespace Residue

variable {p : Nat}

def toWord (a : Residue p) : Bytes := bigEndian wordWidth a.val

@[simp] theorem length_toWord (a : Residue p) : a.toWord.length = wordWidth := by simp [toWord]

/-- The residue whose least member is `n`, absent when `n` is not below the modulus. -/
def ofNat? (n : Nat) : Option (Residue p) := if h : n < p then some ⟨n, h⟩ else none

@[simp] theorem ofNat?_val (a : Residue p) : ofNat? a.val = some a := by simp [ofNat?, a.lt]

theorem ofNat?_eq_some_iff {n : Nat} {a : Residue p} : ofNat? n = some a ↔ n = a.val := by
  constructor
  · intro h
    rw [ofNat?] at h
    split at h
    · cases h
      rfl
    · cases h
  · rintro rfl
    exact ofNat?_val a

theorem ofNat?_eq_none_iff (n : Nat) : (ofNat? n : Option (Residue p)) = none ↔ p ≤ n := by
  simp [ofNat?]

def toDecimal (a : Residue p) : String := decimalOfWord a.toWord

variable [Modulus p]

/-- The residue written by a word: the class of the word's number, if that class is written by the
same word again. -/
def ofWord? (word : Bytes) : Option (Residue p) :=
  let a : Residue p := ofNat (ofBigEndian word)
  if a.toWord = word then some a else none

/-- A class is written by its least member only, so what is read is a number below the modulus. -/
theorem ofWord?_eq_ofNat? {word : Bytes} (h : word.length = wordWidth) :
    (ofWord? word : Option (Residue p)) = ofNat? (ofBigEndian word) := by
  have hword : ofBigEndian word < Nat.pow 256 wordWidth := h ▸ ofBigEndian_lt word
  by_cases hlt : ofBigEndian word < p
  · have hval : (ofNat (ofBigEndian word) : Residue p).val = ofBigEndian word :=
      Nat.mod_eq_of_lt hlt
    have hsame : (ofNat (ofBigEndian word) : Residue p).toWord = word := by
      rw [toWord, hval, ← h, bigEndian_ofBigEndian]
    simp only [ofWord?, hsame, ↓reduceIte, ofNat?, hlt, ↓reduceDIte]
    exact congrArg some (ext_val hval)
  · have hless : ofBigEndian word % p < ofBigEndian word :=
      Nat.lt_of_lt_of_le (Nat.mod_lt _ Modulus.pos) (Nat.le_of_not_lt hlt)
    have hother : (ofNat (ofBigEndian word) : Residue p).toWord ≠ word := by
      intro hsame
      have hnumber := congrArg ofBigEndian hsame
      rw [toWord, ofBigEndian_bigEndian, val_ofNat,
        Nat.mod_eq_of_lt (Nat.lt_trans hless hword)] at hnumber
      omega
    rw [ofWord?, if_neg hother, (ofNat?_eq_none_iff _).mpr (Nat.le_of_not_lt hlt)]

theorem ofWord?_eq_some_iff {word : Bytes} (h : word.length = wordWidth) {a : Residue p} :
    ofWord? word = some a ↔ ofBigEndian word = a.val := by
  rw [ofWord?_eq_ofNat? h, ofNat?_eq_some_iff]

/-- The residue written by a decimal text, absent when the text is no word or not below the
modulus. -/
def ofDecimal? (s : String) : Option (Residue p) := (wordOfDecimal? s).bind ofWord?

end Residue

end CircuitProof
