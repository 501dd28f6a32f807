import Mathlib.Tactic.SplitIfs
import CircuitProof.Json.Text

/-!
# Strings in JSON read back

Each character is written as itself, as a backslash with a letter, or as a backslash with its
number, and read back as its bytes. A round of the reader takes a byte at least, so fuel for the
bytes is enough.
-/

namespace CircuitProof

/-! ## The bytes of a text

A text is encoded character by character. An ASCII character is one byte, its number; the bytes of
any other character lie above all of these.
-/

/-- The bytes of a text are those of its characters, one after the other. -/
theorem utf8_eq_flatMap (s : String) : utf8 s = s.toList.flatMap String.utf8EncodeChar := by
  have hbytes : s.toByteArray = s.toList.utf8Encode := by
    rw [← String.toByteArray_ofList, String.ofList_toList]
  rw [utf8, String.toUTF8_eq_toByteArray, hbytes, List.utf8Encode, List.data_toByteArray]

theorem utf8_append (s t : String) : utf8 (s ++ t) = utf8 s ++ utf8 t := by
  rw [utf8_eq_flatMap, utf8_eq_flatMap, utf8_eq_flatMap, String.toList_append, List.flatMap_append]

theorem utf8_join (items : List String) : utf8 (String.join items) = items.flatMap utf8 := by
  rw [utf8_eq_flatMap, String.toList_join, List.flatMap_assoc]
  simp only [← utf8_eq_flatMap]

theorem utf8_singleton (c : Char) : utf8 (String.singleton c) = String.utf8EncodeChar c := by
  rw [utf8_eq_flatMap, String.toList_singleton, List.flatMap_singleton]

theorem utf8_intercalate (separator item : String) (items : List String) :
    utf8 (separator.intercalate (item :: items)) =
      utf8 item ++ items.flatMap fun item => utf8 separator ++ utf8 item := by
  induction items generalizing item with
  | nil => rw [String.intercalate_singleton, List.flatMap_nil, List.append_nil]
  | cons item' items ih =>
    rw [String.intercalate_cons_cons, utf8_append, utf8_append, ih, List.flatMap_cons,
      List.append_assoc, List.append_assoc]

theorem utf8EncodeChar_of_ascii {c : Char} (h : c.toNat < 0x80) :
    String.utf8EncodeChar c = [UInt8.ofNat c.toNat] := by
  have hle : c.val.toNat ≤ 0x7f := by
    have : c.val.toNat < 0x80 := h
    omega
  rw [String.utf8EncodeChar, if_pos hle]
  rfl

/-- No byte of a character outside ASCII is an ASCII character. -/
theorem le_of_mem_utf8EncodeChar {c : Char} (h : 0x80 ≤ c.toNat) {b : UInt8}
    (hb : b ∈ String.utf8EncodeChar c) : 0x80 ≤ b.toNat := by
  have hlarge : ¬ c.val.toNat ≤ 0x7f := by
    have : 0x80 ≤ c.val.toNat := h
    omega
  have hbyte : ∀ {n : Nat}, 0x80 ≤ n → n < 0x100 → 0x80 ≤ (UInt8.ofNat n).toNat := by
    intro n hle hlt
    rwa [UInt8.toNat_ofNat_of_lt' hlt]
  simp only [String.utf8EncodeChar, if_neg hlarge] at hb
  split at hb
  · simp only [List.mem_cons, List.not_mem_nil, or_false] at hb
    rcases hb with rfl | rfl <;> exact hbyte (by omega) (by omega)
  · split at hb
    · simp only [List.mem_cons, List.not_mem_nil, or_false] at hb
      rcases hb with rfl | rfl | rfl <;> exact hbyte (by omega) (by omega)
    · simp only [List.mem_cons, List.not_mem_nil, or_false] at hb
      rcases hb with rfl | rfl | rfl | rfl <;> exact hbyte (by omega) (by omega)

/-! ## Reading back -/

namespace Json

/-- From behind an opening quote the bytes read as the content, up to what is behind the closing
quote. -/
def Closes (bytes content rest : Bytes) : Prop :=
  ∀ fuel, bytes.length < fuel → stringBytes fuel bytes = .ok (content, rest)

def Plain (b : UInt8) : Prop := b ≠ quoteMark ∧ b ≠ backslash ∧ ¬ b < 0x20

variable {bytes content rest : Bytes}

theorem closes_quoteMark (rest : Bytes) : Closes (quoteMark :: rest) [] rest := by
  intro fuel hfuel
  cases fuel with
  | zero => exact absurd hfuel (Nat.not_lt_zero _)
  | succ fuel => rfl

theorem Closes.plain {b : UInt8} (h : Closes bytes content rest) (hb : Plain b) :
    Closes (b :: bytes) (b :: content) rest := by
  obtain ⟨hquote, hslash, hvisible⟩ := hb
  intro fuel hfuel
  cases fuel with
  | zero => exact absurd hfuel (Nat.not_lt_zero _)
  | succ fuel =>
    rw [stringBytes, Reader.bind_of_ok (a := b) rfl, if_neg hquote, if_neg hslash, if_neg hvisible,
      Reader.bind_of_ok (h fuel (Nat.lt_of_succ_lt_succ hfuel))]
    rfl

theorem Closes.plainAll {front : Bytes} (h : Closes bytes content rest)
    (hfront : ∀ b ∈ front, Plain b) :
    Closes (front ++ bytes) (front ++ content) rest := by
  induction front with
  | nil => exact h
  | cons b front ih =>
    have hlater := ih fun b' hb' => hfront b' (List.mem_cons_of_mem _ hb')
    exact hlater.plain (hfront b List.mem_cons_self)

/-- An escape is read as the bytes that it stands for. -/
theorem Closes.escape (h : Closes bytes content rest) (letters : Bytes) {c : Bytes}
    (hescape : escape (letters ++ bytes) = .ok (c, bytes)) :
    Closes (backslash :: letters ++ bytes) (c ++ content) rest := by
  intro fuel hfuel
  cases fuel with
  | zero => exact absurd hfuel (Nat.not_lt_zero _)
  | succ fuel =>
    have hshort : bytes.length < fuel := by
      rw [List.cons_append, List.length_cons, List.length_append] at hfuel
      omega
    rw [stringBytes, List.cons_append, Reader.bind_of_ok (a := backslash) rfl, if_neg (by decide),
      if_pos rfl, Reader.bind_of_ok hescape, Reader.bind_of_ok (h fuel hshort)]
    rfl

/-! ## Numeric escapes -/

theorem hexDigit?_digitChar : ∀ n < 16,
    hexDigit? (UInt8.ofNat (Nat.digitChar n).toNat) = some n := by
  decide

theorem utf8EncodeChar_digitChar : ∀ n < 16,
    String.utf8EncodeChar (Nat.digitChar n) = [UInt8.ofNat (Nat.digitChar n).toNat] := by
  decide

/-- The number of a control character stands for it. -/
theorem escape_number {c : Char} (hc : c.toNat < 0x20) (bytes : Bytes) :
    escape (letterU :: 0x30 :: 0x30 :: UInt8.ofNat (Nat.digitChar (c.toNat / 16)).toNat ::
      UInt8.ofNat (Nat.digitChar (c.toNat % 16)).toNat :: bytes) =
        .ok (String.utf8EncodeChar c, bytes) := by
  have hhigh := hexDigit?_digitChar (c.toNat / 16) (by omega)
  have hlow := hexDigit?_digitChar (c.toNat % 16) (by omega)
  have hzero : hexDigit? 0x30 = some 0 := rfl
  have hnumber : ((0 * 16 + 0) * 16 + c.toNat / 16) * 16 + c.toNat % 16 = c.toNat := by omega
  have hfour : fourHex (0x30 :: 0x30 :: UInt8.ofNat (Nat.digitChar (c.toNat / 16)).toNat ::
      UInt8.ofNat (Nat.digitChar (c.toNat % 16)).toNat :: bytes) = .ok (c.toNat, bytes) := by
    simp only [fourHex, hzero, hhigh, hlow, hnumber]
  have hlowSurrogate : isLowSurrogate c.toNat = false := by
    simp only [isLowSurrogate, Bool.and_eq_false_iff, decide_eq_false_iff_not]
    omega
  have hhighSurrogate : isHighSurrogate c.toNat = false := by
    simp only [isHighSurrogate, Bool.and_eq_false_iff, decide_eq_false_iff_not]
    omega
  rw [Json.escape, Reader.bind_of_ok (a := letterU) rfl]
  change codePoint _ = _
  rw [codePoint, Reader.bind_of_ok hfour]
  simp only [hlowSurrogate, hhighSurrogate, Bool.false_eq_true, if_false]
  rw [encodeCodePoint, Char.ofNat_toNat]
  rfl

/-! ## Texts -/

theorem plain_of_ascii {c : Char} (hascii : c.toNat < 0x80) (hvisible : ¬ c.toNat < 0x20)
    (hquote : c ≠ '"') (hslash : c ≠ '\\') : Plain (UInt8.ofNat c.toNat) := by
  have hbyte : (UInt8.ofNat c.toNat).toNat = c.toNat :=
    UInt8.toNat_ofNat_of_lt' (Nat.lt_trans hascii (by decide))
  refine ⟨fun h => hquote ?_, fun h => hslash ?_, fun h => hvisible ?_⟩
  · exact Char.toNat_inj.mp (hbyte.symm.trans (congrArg UInt8.toNat h))
  · exact Char.toNat_inj.mp (hbyte.symm.trans (congrArg UInt8.toNat h))
  · rw [UInt8.lt_iff_toNat_lt, hbyte] at h
    exact h

theorem plain_of_le {b : UInt8} (h : 0x80 ≤ b.toNat) : Plain b := by
  refine ⟨?_, ?_, ?_⟩
  · rintro rfl
    exact absurd h (by decide)
  · rintro rfl
    exact absurd h (by decide)
  · rw [UInt8.lt_iff_toNat_lt]
    have : (0x20 : UInt8).toNat = 0x20 := rfl
    omega

/-- A character that a letter stands for. -/
theorem Closes.letter (h : Closes bytes content rest) {c : Char} {written : String} (letter : UInt8)
    (hwritten : utf8 written = [backslash, letter])
    (hletter : escapedByte? letter = some (UInt8.ofNat c.toNat)) (hc : c.toNat < 0x80) :
    Closes (utf8 written ++ bytes) (String.utf8EncodeChar c ++ content) rest := by
  rw [hwritten, utf8EncodeChar_of_ascii hc]
  refine h.escape [letter] ?_
  rw [Json.escape, List.singleton_append, Reader.bind_of_ok (a := letter) rfl, hletter]
  rfl

/-- A written character reads back as its bytes. -/
theorem Closes.escapeChar (h : Closes bytes content rest) (c : Char) :
    Closes (utf8 (escapeChar c) ++ bytes) (String.utf8EncodeChar c ++ content) rest := by
  unfold Json.escapeChar
  split_ifs with hquote hslash hnewline hreturn htab hbackspace hfeed hcontrol
  · subst hquote
    exact h.letter 0x22 (by decide) rfl (by decide)
  · subst hslash
    exact h.letter 0x5c (by decide) rfl (by decide)
  · subst hnewline
    exact h.letter 0x6e (by decide) rfl (by decide)
  · subst hreturn
    exact h.letter 0x72 (by decide) rfl (by decide)
  · subst htab
    exact h.letter 0x74 (by decide) rfl (by decide)
  · exact h.letter 0x62 (by decide) (by rw [hbackspace]; rfl) (by omega)
  · exact h.letter 0x66 (by decide) (by rw [hfeed]; rfl) (by omega)
  · have hwritten : utf8 ("\\u00" ++ String.ofList [Nat.digitChar (c.toNat / 16),
        Nat.digitChar (c.toNat % 16)]) = backslash :: [letterU, 0x30, 0x30,
          UInt8.ofNat (Nat.digitChar (c.toNat / 16)).toNat,
          UInt8.ofNat (Nat.digitChar (c.toNat % 16)).toNat] := by
      have hfront : utf8 "\\u00" = [backslash, letterU, 0x30, 0x30] := by decide
      rw [utf8_append, hfront, utf8_eq_flatMap, String.toList_ofList, List.flatMap_cons,
        List.flatMap_cons, utf8EncodeChar_digitChar _ (by omega),
        utf8EncodeChar_digitChar _ (by omega)]
      rfl
    rw [hwritten]
    exact h.escape _ (escape_number hcontrol bytes)
  · rw [utf8_singleton]
    refine h.plainAll fun b hb => ?_
    by_cases hascii : c.toNat < 0x80
    · rw [utf8EncodeChar_of_ascii hascii, List.mem_singleton] at hb
      rw [hb]
      exact plain_of_ascii hascii hcontrol hquote hslash
    · exact plain_of_le (le_of_mem_utf8EncodeChar (Nat.le_of_not_lt hascii) hb)

/-- What stands behind the opening quote of a text. -/
def closing (s : String) : Bytes := utf8 (String.join (s.toList.map escapeChar)) ++ [quoteMark]

theorem utf8_quoted (s : String) : utf8 (quoted s) = quoteMark :: closing s := by
  have hmark : utf8 "\"" = [quoteMark] := by decide
  rw [quoted, utf8_append, utf8_append, hmark, closing]
  rfl

/-- Every character is written in a way in which it is read back. -/
theorem closes_closing (s : String) (rest : Bytes) : Closes (closing s ++ rest) (utf8 s) rest := by
  have hall : ∀ cs : List Char, Closes (utf8 (String.join (cs.map Json.escapeChar)) ++ quoteMark :: rest)
      (cs.flatMap String.utf8EncodeChar) rest := by
    intro cs
    rw [utf8_join, List.flatMap_map]
    induction cs with
    | nil => exact closes_quoteMark rest
    | cons c cs ih =>
      rw [List.flatMap_cons, List.flatMap_cons, List.append_assoc]
      exact ih.escapeChar c
  rw [closing, List.append_assoc, utf8_eq_flatMap s]
  exact hall s.toList

/-- Every text reads back. -/
theorem text_closing (s : String) (rest : Bytes) : text (closing s ++ rest) = .ok (s, rest) := by
  rw [text, closes_closing s rest _ (Nat.lt_succ_self _)]
  simp only [ofUtf8?_utf8]

end Json

end CircuitProof
