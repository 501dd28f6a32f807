import CircuitProof.Json.Text

/-!
# Lists and records in JSON

Readers for values of known shape, for values that are skipped, and for telling how a value of the
wrong type fails: such a value is still read to its end if it is a string, a number or a literal, so
a text that stops inside it is cut short and any other is malformed.
-/

namespace CircuitProof

namespace Json

def isBlank (b : UInt8) : Bool := b = 0x20 || b = 0x0a || b = 0x09 || b = 0x0d

def comma : UInt8 := 0x2c
def colon : UInt8 := 0x3a
def openBracket : UInt8 := 0x5b
def closeBracket : UInt8 := 0x5d
def openBrace : UInt8 := 0x7b
def closeBrace : UInt8 := 0x7d

def isDigit (b : UInt8) : Bool := 48 ≤ b.toNat && b.toNat ≤ 57

/-- The next byte behind blanks, left in place. -/
def peek : Parser UInt8 := fun bytes =>
  match bytes.dropWhile isBlank with
  | [] => .error .cutShort
  | b :: rest => .ok (b, b :: rest)

/-! ## Values of the wrong type -/

/-- How a text fails that must go on with the given letters. -/
def literalFault : Bytes → Bytes → Fault
  | [], _ => .malformed
  | _ :: _, [] => .cutShort
  | e :: expected, b :: bytes => if e = b then literalFault expected bytes else .malformed

/-- How an exponent fails, from behind its letter. -/
def exponentFault (bytes : Bytes) : Fault :=
  let unsigned := match bytes with
    | b :: rest => if b = 0x2b ∨ b = 0x2d then rest else bytes
    | [] => []
  if unsigned = [] then .cutShort else .malformed

/-- How a number fails behind its integer digits. -/
def fractionFault : Bytes → Fault
  | [] => .malformed
  | b :: rest =>
    if b = 0x2e then
      match rest with
      | [] => .cutShort
      | d :: rest =>
        if isDigit d then
          match rest.dropWhile isDigit with
          | e :: rest => if e = 0x65 ∨ e = 0x45 then exponentFault rest else .malformed
          | [] => .malformed
        else .malformed
    else if b = 0x65 ∨ b = 0x45 then exponentFault rest
    else .malformed

/-- How a number fails behind its sign, being no value that is wanted. -/
def numberFault : Bytes → Fault
  | [] => .cutShort
  | b :: rest =>
    if b = 0x30 then if rest.head?.any isDigit then .malformed else fractionFault rest
    else if isDigit b then fractionFault (rest.dropWhile isDigit)
    else .malformed

/-- How a value fails whose type is not the one that is wanted. -/
def wrongType {α : Type} : Parser α := fun bytes =>
  match bytes with
  | [] => .error .cutShort
  | b :: rest =>
    if b = quoteMark then
      match text rest with
      | .error fault => .error fault
      | .ok _ => .error .malformed
    else if b = 0x2d then .error (numberFault rest)
    else if isDigit b then .error (numberFault bytes)
    else if b = 0x6e then .error (literalFault [0x75, 0x6c, 0x6c] rest)
    else if b = 0x74 then .error (literalFault [0x72, 0x75, 0x65] rest)
    else if b = 0x66 then .error (literalFault [0x61, 0x6c, 0x73, 0x65] rest)
    else .error .malformed

/-! ## Values of known shape -/

def string : Parser String := do
  let b ← peek
  if b = quoteMark then do
    expect quoteMark
    text
  else wrongType

/-- Whether a list goes on behind the items read so far; takes the comma if it does. -/
def hasNext (first : Bool) : Parser Bool := do
  let b ← peek
  if b = closeBracket then pure false
  else if first then pure true
  else if b = comma then do
    expect comma
    let b ← peek
    if b = closeBracket then fail else pure true
  else fail

def close (mark : UInt8) : Parser Unit := do
  let _ ← peek
  expect mark

variable {α : Type}

/-- The given number of items, of which the first is the first of its list if `first` is set. -/
def itemsExactly (item : Parser α) : Nat → Bool → Parser (List α)
  | 0, _ => pure []
  | n + 1, first => do
    if ← hasNext first then do
      let x ← item
      let xs ← itemsExactly item n false
      pure (x :: xs)
    else fail

/-- Items up to the end of their list. Each round takes a byte at least. -/
def itemsWithin (item : Parser α) : Nat → Bool → Parser (List α)
  | 0, _ => fail
  | fuel + 1, first => do
    if ← hasNext first then do
      let x ← item
      let xs ← itemsWithin item fuel false
      pure (x :: xs)
    else pure []

def pair (item : Parser α) : Parser (α × α) := do
  let b ← peek
  if b = openBracket then do
    expect openBracket
    let items ← itemsExactly item 2 true
    close closeBracket
    match items with
    | [x, y] => pure (x, y)
    | _ => fail
  else wrongType

def list (item : Parser α) : Parser (List α) := do
  let b ← peek
  if b = openBracket then do
    expect openBracket
    let items ← fun bytes => itemsWithin item (bytes.length + 1) true bytes
    close closeBracket
    pure items
  else wrongType

def nextKey? (first : Bool) : Parser (Option String) := do
  let b ← peek
  if b = closeBrace then pure none
  else do
    if !first then expect comma
    let b ← peek
    if b = quoteMark then do
      expect quoteMark
      let key ← text
      pure (some key)
    else fail

def keyEnd : Parser Unit := do
  let _ ← peek
  expect colon

/-! ## Values that are skipped -/

/-- The literal that the given letters complete. -/
def skipLiteral (letters : Bytes) : Parser Unit :=
  match letters with
  | [] => pure ()
  | b :: rest => do
    expect b
    skipLiteral rest

/-- One digit at least. Here a text that stops is malformed. -/
def someDigits : Parser Unit
  | [] => .error .malformed
  | b :: rest => if isDigit b then .ok ((), rest.dropWhile isDigit) else .error .malformed

/-- A number without its sign. -/
def skipNumber : Parser Unit := do
  let integer : Parser Unit := fun bytes =>
    match bytes with
    | b :: rest =>
      if b = 0x30 then if rest.head?.any isDigit then .error .malformed else .ok ((), rest)
      else if isDigit b then .ok ((), rest.dropWhile isDigit)
      else .error .malformed
    | [] => .error .malformed
  let exponent : Parser Unit := fun bytes =>
    match bytes with
    | b :: rest =>
      if b = 0x65 ∨ b = 0x45 then
        match rest with
        | s :: unsigned => if s = 0x2b ∨ s = 0x2d then someDigits unsigned else someDigits rest
        | [] => .error .malformed
      else .ok ((), bytes)
    | [] => .ok ((), [])
  let fraction : Parser Unit := fun bytes =>
    match bytes with
    | b :: rest => if b = 0x2e then someDigits rest else .ok ((), bytes)
    | [] => .ok ((), [])
  integer
  fraction
  exponent

/-- A value that is no list and no record. -/
def skipScalar : Parser Unit := do
  let b ← next
  if b = quoteMark then skipString
  else if b = 0x2d then skipNumber
  else if isDigit b then fun bytes => skipNumber (b :: bytes)
  else if b = 0x6e then skipLiteral [0x75, 0x6c, 0x6c]
  else if b = 0x74 then skipLiteral [0x72, 0x75, 0x65]
  else if b = 0x66 then skipLiteral [0x61, 0x6c, 0x73, 0x65]
  else fail

/-- The key of a record's next entry, up to behind its colon. -/
def skipKey : Parser Unit := do
  let _ ← peek
  expect quoteMark
  skipString
  keyEnd

mutual

/-- Skips a value inside the containers whose closing marks are listed, the innermost first, and
goes on behind it. Each step takes a byte or opens or closes a container. -/
def skipValueIn : Nat → Bytes → Parser Unit
  | 0, _ => fail
  | fuel + 1, open_ => do
    let b ← peek
    if b = openBracket then do
      expect openBracket
      skipNextIn fuel false closeBracket open_
    else if b = openBrace then do
      expect openBrace
      skipNextIn fuel false closeBrace open_
    else do
      skipScalar
      match open_ with
      | [] => pure ()
      | mark :: outer => skipNextIn fuel true mark outer

/-- Goes on inside the container that closes with `mark`, behind a value or at its start. -/
def skipNextIn : Nat → Bool → UInt8 → Bytes → Parser Unit
  | 0, _, _, _ => fail
  | fuel + 1, behindValue, mark, outer => do
    let b ← peek
    if b = mark then do
      expect mark
      match outer with
      | [] => pure ()
      | next :: outer => skipNextIn fuel true next outer
    else do
      if behindValue then expect comma
      if mark = closeBrace then skipKey
      skipValueIn fuel (mark :: outer)

end

def skipValue : Parser Unit := fun bytes => skipValueIn (2 * bytes.length + 2) [] bytes

def document (value : Parser α) (bytes : Bytes) : Except Fault α :=
  match value bytes with
  | .error fault => .error fault
  | .ok (a, rest) => if rest.all isBlank then .ok a else .error .malformed

/-! ## Writing -/

/-- Written items between two marks, each on a line of its own two places further in than the marks;
`margin` is the blank space before the closing one. -/
def layOut (opening closing margin : String) (items : List String) : String :=
  if items = [] then opening ++ closing
  else
    opening ++ "\n" ++
      String.intercalate ",\n" (items.map fun item => margin ++ "  " ++ item) ++
      "\n" ++ margin ++ closing

def writeStrings (margin : String) (items : List String) : String :=
  layOut "[" "]" margin (items.map quoted)

end Json

end CircuitProof
