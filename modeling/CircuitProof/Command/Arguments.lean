import CircuitProof.Field.Word

/-!
# Command lines

A command line is read from left to right and the first token that settles the matter wins: one that
asks for help or for the version ends the reading, and so does one that is not understood. An option
takes its value behind an equals sign or as the next token, at most once; a next token that starts
with a hyphen is no value unless it is the hyphen alone.
-/

namespace CircuitProof

namespace Command

structure DemoOptions where
  directory : String
  /-- The seed of the secrets; they are drawn at random without one. -/
  seed : Option Nat
  a : Nat
  b : Nat
  sum : Nat
  deriving DecidableEq

structure VerifyOptions where
  directory : String
  key : Option String
  proof : Option String
  input : Option String
  deriving DecidableEq

inductive Request where
  | help
  | version
  | demo (options : DemoOptions)
  | verify (options : VerifyOptions)
  deriving DecidableEq

structure Invocation where
  request : Request
  timings : Bool
  deriving DecidableEq

inductive Stop where
  | notUnderstood
  | help
  deriving DecidableEq

structure ValuedOption (σ : Type) where
  name : String
  letter : Option Char
  /-- The settings with the given value, absent if the value is refused. -/
  set : String → σ → Option σ

/-! ## Values -/

def pathValue? (s : String) : Option String := if s = "" then none else some s

/-- The number that 64 bits hold, with or without a plus sign. -/
def wordValue? (s : String) : Option Nat :=
  let digits := match s.toList with
    | '+' :: rest => String.ofList rest
    | _ => s
  (ofDecimal? digits).bind fun n => if n < Nat.pow 2 64 then some n else none

/-! ## Tokens -/

/-- Whether a token may be the value of the option before it. -/
def isValue (token : List Char) : Bool := token = ['-'] || token.head? ≠ some '-'

inductive Token where
  | word
  /-- Two hyphens: only words follow. -/
  | endOfOptions
  | long (name : String) (value : Option String)
  /-- A letter and what follows it. -/
  | short (letter : Char) (rest : List Char)
  deriving DecidableEq

def splitValue (s : List Char) : String × Option String :=
  match s.dropWhile (· ≠ '=') with
  | [] => (String.ofList s, none)
  | _ :: value => (String.ofList (s.takeWhile (· ≠ '=')), some (String.ofList value))

def Token.ofString (s : String) : Token :=
  match s.toList with
  | ['-', '-'] => endOfOptions
  | '-' :: '-' :: rest =>
    let (name, value) := splitValue rest
    long name value
  | '-' :: letter :: rest => short letter rest
  | _ => word

/-- The value that follows a letter in its token, without the equals sign. -/
def attachedValue? : List Char → Option String
  | [] => none
  | '=' :: rest => some (String.ofList rest)
  | rest => some (String.ofList rest)

/-! ## Options of a command -/

def helpName : String := "help"
def helpLetter : Char := 'h'
def timingsName : String := "timings"

/-- The settings read so far, with the names of the options that have been used. -/
structure Progress (σ : Type) where
  settings : σ
  used : List String

variable {σ : Type}

/-- Notes the use of an option; a second use is refused. -/
def Progress.use (p : Progress σ) (name : String) : Option (Progress σ) :=
  if name ∈ p.used then none else some { p with used := name :: p.used }

def Progress.give (p : Progress σ) (option : ValuedOption σ) (value : String) :
    Option (Progress σ) := do
  let p ← p.use option.name
  let settings ← option.set value p.settings
  some { p with settings := settings }

def readOptions (options : List (ValuedOption σ)) (p : Progress σ) :
    List String → Except Stop (Progress σ)
  | [] => .ok p
  | token :: rest =>
    let readValued (option : Option (ValuedOption σ)) (attached : Option String) :=
      match option, attached with
      | none, _ => .error .notUnderstood
      | some option, some value =>
        match p.give option value with
        | none => .error .notUnderstood
        | some p => readOptions options p rest
      | some option, none =>
        match rest with
        | [] => .error .notUnderstood
        | value :: rest =>
          if isValue value.toList then
            match p.give option value with
            | none => .error .notUnderstood
            | some p => readOptions options p rest
          else .error .notUnderstood
    match Token.ofString token with
    | .word => .error .notUnderstood
    | .endOfOptions => if rest = [] then .ok p else .error .notUnderstood
    | .long name value =>
      if name = helpName ∧ value = none then .error .help
      else if name = timingsName ∧ value = none then
        match p.use timingsName with
        | none => .error .notUnderstood
        | some p => readOptions options p rest
      else readValued (options.find? (·.name = name)) value
    | .short letter following =>
      if letter = helpLetter then .error .help
      else readValued (options.find? (·.letter = some letter)) (attachedValue? following)
termination_by tokens => tokens.length

def DemoOptions.default : DemoOptions := ⟨".", none, 1, 2, 3⟩

def VerifyOptions.default : VerifyOptions := ⟨".", none, none, none⟩

def demoOptions : List (ValuedOption DemoOptions) :=
  [⟨"out-dir", some 'o', fun s o => (pathValue? s).map fun v => { o with directory := v }⟩,
    ⟨"seed", none, fun s o => (wordValue? s).map fun v => { o with seed := some v }⟩,
    ⟨"a", none, fun s o => (wordValue? s).map fun v => { o with a := v }⟩,
    ⟨"b", none, fun s o => (wordValue? s).map fun v => { o with b := v }⟩,
    ⟨"sum", none, fun s o => (wordValue? s).map fun v => { o with sum := v }⟩]

def verifyOptions : List (ValuedOption VerifyOptions) :=
  [⟨"dir", some 'd', fun s o => (pathValue? s).map fun v => { o with directory := v }⟩,
    ⟨"vk", none, fun s o => (pathValue? s).map fun v => { o with key := some v }⟩,
    ⟨"proof", none, fun s o => (pathValue? s).map fun v => { o with proof := some v }⟩,
    ⟨"input", none, fun s o => (pathValue? s).map fun v => { o with input := some v }⟩]

/-! ## Whole command lines -/

def invoke? (options : List (ValuedOption σ)) (start : σ) (request : σ → Request)
    (timings : Bool) (tokens : List String) : Option Invocation :=
  match readOptions options ⟨start, []⟩ tokens with
  | .ok p => some ⟨request p.settings, timings || timingsName ∈ p.used⟩
  | .error .help => some ⟨.help, timings⟩
  | .error .notUnderstood => none

def demoName : String := "demo"
def verifyName : String := "verify"

/-- Whether the words behind the command `help` name at most one command. -/
def isHelpTopic : List String → Bool
  | [] => true
  | [topic] => topic ∈ [demoName, verifyName, helpName]
  | _ => false

def readCommand? (timings : Bool) : List String → Option Invocation
  | [] => none
  | token :: rest =>
    if token = demoName then invoke? demoOptions .default .demo timings rest
    else if token = verifyName then invoke? verifyOptions .default .verify timings rest
    else if token = helpName then
      if isHelpTopic rest then some ⟨.help, timings⟩ else none
    else
      match Token.ofString token with
      | .long name none =>
        if name = helpName then some ⟨.help, timings⟩
        else if name = "version" then some ⟨.version, timings⟩
        else if name = timingsName ∧ !timings then readCommand? true rest
        else none
      | .short letter _ =>
        if letter = helpLetter then some ⟨.help, timings⟩
        else if letter = 'V' then some ⟨.version, timings⟩
        else none
      | _ => none

/-- What a command line asks for; none when it is not understood. -/
def ofArguments? (arguments : List String) : Option Invocation := readCommand? false arguments

end Command

end CircuitProof
