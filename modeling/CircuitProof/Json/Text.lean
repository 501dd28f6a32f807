import CircuitProof.Bytes.Endian
import CircuitProof.Bytes.Reader

/-!
# Strings in JSON

A text is read from its first byte on, and the first problem decides how the reading fails: the text
ends too early, or it breaks the grammar. Strings are read from behind their opening quote. Their
bytes need not be well formed where a value is only skipped.
-/

namespace CircuitProof

/-! ## Text as bytes -/

def utf8 (s : String) : Bytes := s.toUTF8.data.toList

/-- The text that the bytes encode, absent when they are not well formed. -/
def ofUtf8? (bytes : Bytes) : Option String := String.fromUTF8? ⟨bytes.toArray⟩

theorem ofUtf8?_utf8 (s : String) : ofUtf8? (utf8 s) = some s := by
  simp only [ofUtf8?, utf8, Array.toArray_toList]
  unfold String.fromUTF8?
  simp [String.toUTF8_eq_toByteArray, s.isValidUTF8]
  rfl

/-! ## Parsers -/

namespace Json

inductive Fault where
  | malformed
  /-- Everything so far could be the start of a well formed text. -/
  | cutShort
  deriving DecidableEq

abbrev Parser (α : Type) : Type := Reader Fault α

def quoteMark : UInt8 := 0x22
def backslash : UInt8 := 0x5c
def letterU : UInt8 := 0x75

def fail {α : Type} : Parser α := Reader.fail .malformed

def next : Parser UInt8
  | [] => .error .cutShort
  | b :: rest => .ok (b, rest)

def expect (wanted : UInt8) : Parser Unit := do
  let b ← next
  if b = wanted then pure () else fail

def hexDigit? (b : UInt8) : Option Nat :=
  let n := b.toNat
  if 48 ≤ n ∧ n ≤ 57 then some (n - 48)
  else if 97 ≤ n ∧ n ≤ 102 then some (n - 87)
  else if 65 ≤ n ∧ n ≤ 70 then some (n - 55)
  else none

/-- The number of four hexadecimal digits. With fewer than four bytes left the text is cut short,
whatever they are. -/
def fourHex : Parser Nat
  | a :: b :: c :: d :: rest =>
    match hexDigit? a, hexDigit? b, hexDigit? c, hexDigit? d with
    | some a, some b, some c, some d => .ok (((a * 16 + b) * 16 + c) * 16 + d, rest)
    | _, _, _, _ => .error .malformed
  | _ => .error .cutShort

/-- The byte that a one-letter escape stands for. -/
def escapedByte? (letter : UInt8) : Option UInt8 :=
  match letter.toNat with
  | 0x22 => some 0x22
  | 0x5c => some 0x5c
  | 0x2f => some 0x2f
  | 0x62 => some 0x08
  | 0x66 => some 0x0c
  | 0x6e => some 0x0a
  | 0x72 => some 0x0d
  | 0x74 => some 0x09
  | _ => none

def isHighSurrogate (n : Nat) : Bool := 0xd800 ≤ n && n ≤ 0xdbff
def isLowSurrogate (n : Nat) : Bool := 0xdc00 ≤ n && n ≤ 0xdfff

def encodeCodePoint (n : Nat) : Bytes := String.utf8EncodeChar (Char.ofNat n)

/-- The character of a numeric escape, from behind its letter. A high surrogate must be followed by
the escape of a low one, and a low one cannot stand first. -/
def codePoint : Parser Bytes := do
  let n ← fourHex
  if isLowSurrogate n then fail
  else if isHighSurrogate n then do
    expect backslash
    expect letterU
    let low ← fourHex
    if isLowSurrogate low then
      pure (encodeCodePoint (0x10000 + (n - 0xd800) * 0x400 + (low - 0xdc00)))
    else fail
  else pure (encodeCodePoint n)

/-- The bytes that an escape stands for, from behind its backslash. -/
def escape : Parser Bytes := do
  let letter ← next
  match escapedByte? letter with
  | some b => pure [b]
  | none => if letter = letterU then codePoint else fail

/-- An escape whose meaning does not matter. -/
def skipEscape : Parser Unit := do
  let letter ← next
  match escapedByte? letter with
  | some _ => pure ()
  | none =>
    if letter = letterU then do
      let _ ← fourHex
      pure ()
    else fail

/-- The bytes up to the closing quote. Each round takes a byte at least. -/
def stringBytes : Nat → Parser Bytes
  | 0 => fail
  | fuel + 1 => do
    let b ← next
    if b = quoteMark then pure []
    else if b = backslash then do
      let c ← escape
      let rest ← stringBytes fuel
      pure (c ++ rest)
    else if b < 0x20 then fail
    else do
      let rest ← stringBytes fuel
      pure (b :: rest)

/-- Skips to behind the closing quote. -/
def skipStringWithin : Nat → Parser Unit
  | 0 => fail
  | fuel + 1 => do
    let b ← next
    if b = quoteMark then pure ()
    else if b = backslash then do
      skipEscape
      skipStringWithin fuel
    else if b < 0x20 then fail
    else skipStringWithin fuel

def text : Parser String := fun bytes =>
  match stringBytes (bytes.length + 1) bytes with
  | .error fault => .error fault
  | .ok (content, rest) =>
    match ofUtf8? content with
    | none => .error .malformed
    | some s => .ok (s, rest)

def skipString : Parser Unit := fun bytes => skipStringWithin (bytes.length + 1) bytes

def escapeChar (c : Char) : String :=
  if c = '"' then "\\\""
  else if c = '\\' then "\\\\"
  else if c = '\n' then "\\n"
  else if c = '\r' then "\\r"
  else if c = '\t' then "\\t"
  else if c.toNat = 0x08 then "\\b"
  else if c.toNat = 0x0c then "\\f"
  else if c.toNat < 0x20 then
    "\\u00" ++ String.ofList [Nat.digitChar (c.toNat / 16), Nat.digitChar (c.toNat % 16)]
  else String.singleton c

def quoted (s : String) : String := "\"" ++ String.join (s.toList.map escapeChar) ++ "\""

end Json

end CircuitProof
