/-!
# Paths

A path is its text and the parts of it, with empty ones left out. A part `.` inside a path says
nothing, so the lexical functions drop it except in front; `..` stays, because what it means depends
on the disk. Only the length of the text matters beside the parts: one that is too long is refused
whatever it leads to.
-/

namespace CircuitProof

structure Path where
  /-- The path as written. -/
  text : String
  isAbsolute : Bool
  /-- The parts between slashes that are not empty. -/
  parts : List String
  /-- Whether the path ends with a slash and so can only name a directory. -/
  endsWithSlash : Bool
  deriving DecidableEq

namespace Path

def splitSlashes : List Char → List (List Char)
  | [] => [[]]
  | c :: rest =>
    if c = '/' then [] :: splitSlashes rest
    else
      match splitSlashes rest with
      | [] => [[c]]
      | part :: parts => (c :: part) :: parts

def ofString (s : String) : Path where
  text := s
  isAbsolute := s.toList.head? = some '/'
  parts := ((splitSlashes s.toList).filter (· ≠ [])).map String.ofList
  endsWithSlash := s.toList.getLast? = some '/'

def maxLength : Nat := 4095

/-- Whether the path is too long or holds a character that no file name can hold. -/
def isUnusable (p : Path) : Bool :=
  p.text.utf8ByteSize > maxLength || p.parts.any fun part => part.toList.contains '\x00'

/-- The parts without those that say nothing. -/
def lexicalParts (p : Path) : List String :=
  match p.parts with
  | [] => []
  | first :: rest =>
    let rest := rest.filter (· ≠ ".")
    if first = "." ∧ p.isAbsolute then rest else first :: rest

/-- A path of the given parts, absolute if this one is. -/
def withParts (p : Path) (parts : List String) : Path where
  text := (if p.isAbsolute then "/" else "") ++ String.intercalate "/" parts
  isAbsolute := p.isAbsolute
  parts := parts
  endsWithSlash := false

@[simp] theorem parts_withParts (p : Path) (parts : List String) :
    (p.withParts parts).parts = parts := rfl

@[simp] theorem isAbsolute_withParts (p : Path) (parts : List String) :
    (p.withParts parts).isAbsolute = p.isAbsolute := rfl

def fileName? (p : Path) : Option String :=
  match p.lexicalParts.getLast? with
  | none => none
  | some last => if last = "." ∨ last = ".." then none else some last

/-- The parts of the directory that holds the path's last part. -/
def parentParts (p : Path) : List String := p.lexicalParts.dropLast

def join (directory name : String) : String :=
  if directory = "" then name
  else if directory.toList.getLast? = some '/' then directory ++ name
  else directory ++ "/" ++ name

/-- A reversed text without the slashes and the parts `.` in front of it. -/
def dropSilent : List Char → List Char
  | '/' :: rest => dropSilent rest
  | '.' :: '/' :: rest => dropSilent rest
  | text => text

/-- What is written before the path's last part. -/
def parentText (p : Path) : String :=
  let kept := dropSilent ((dropSilent p.text.toList.reverse).dropWhile (· ≠ '/'))
  if kept = [] ∧ p.isAbsolute then "/" else String.ofList kept.reverse

def parent (p : Path) : Path := { p.withParts p.parentParts with text := p.parentText }

/-- The path beside this one whose name has a suffix; a path without a name is taken as the
directory for it. -/
def sibling (p : Path) (suffix : String) : Path :=
  match p.fileName? with
  | some name =>
    { p.withParts (p.parentParts ++ [name ++ suffix]) with
      text := join p.parentText (name ++ suffix) }
  | none => { p.withParts (p.lexicalParts ++ [suffix]) with text := join p.text suffix }

@[simp] theorem parts_parent (p : Path) : p.parent.parts = p.parentParts := rfl

end Path

end CircuitProof
