import CircuitProof.Bytes.Endian
import CircuitProof.Encoding.Error
import CircuitProof.Files.Path

/-!
# A disk

Directories hold names; a name stands for a directory or for a numbered file, and the contents belong
to the number. So a file that is open keeps its contents when its name moves or goes away. Several
names can stand for one file: a disk may have such names to begin with, but no operation here makes
one. Symbolic links are left out. On a disk that has them, creating a file would follow one at its name
and a rename would move the link itself.
-/

namespace CircuitProof

/-- The names on the way from the root. -/
abbrev Location := List String

inductive Entry where
  | directory
  | file (number : Nat)
  deriving DecidableEq

structure Disk where
  /-- What stands at each location; the root is always a directory and has no entry. -/
  entries : List (Location × Entry)
  /-- The contents of each numbered file. -/
  contents : List (Nat × Bytes)
  /-- The least number that no file has had. -/
  nextNumber : Nat

/-- What the last part of a path leads to. -/
inductive Target where
  /-- An existing directory, named by `.` or `..` or as the root. -/
  | directory (location : Location)
  /-- A name in an existing directory; `onlyDirectory` if a slash follows it. -/
  | name (location : Location) (onlyDirectory : Bool)

section
variable {α β : Type} [BEq α] [LawfulBEq α] [DecidableEq α]

/-- Taking a key out of a list of pairs changes what that key finds and nothing else. -/
theorem lookup_filter_ne (key key' : α) (items : List (α × β)) :
    (items.filter fun other => other.1 ≠ key).lookup key' =
      if key' = key then none else items.lookup key' := by
  induction items with
  | nil => split <;> rfl
  | cons item rest ih =>
    obtain ⟨k, v⟩ := item
    by_cases hk : k = key
    · rw [List.filter_cons_of_neg (by simp [hk]), ih, hk, List.lookup_cons]
      split
      · rfl
      · next h => rw [beq_eq_false_iff_ne.mpr h]
    · rw [List.filter_cons_of_pos (by simp [hk]), List.lookup_cons, List.lookup_cons, ih]
      by_cases h : key' = k
      · have : ¬ key' = key := fun h' => hk (h.symm.trans h')
        simp [h, hk]
      · rw [beq_eq_false_iff_ne.mpr h]

end

namespace Disk

def empty : Disk := ⟨[], [], 0⟩

variable (disk : Disk)

def occupant? (location : Location) : Option Entry :=
  if location = [] then some .directory else disk.entries.lookup location

def bytesOf (number : Nat) : Bytes := (disk.contents.lookup number).getD []

def setEntry (location : Location) (entry : Entry) : Disk :=
  { disk with
    entries := (location, entry) :: disk.entries.filter fun other => other.1 ≠ location }

def clearEntry (location : Location) : Disk :=
  { disk with entries := disk.entries.filter fun other => other.1 ≠ location }

def setBytes (number : Nat) (bytes : Bytes) : Disk :=
  { disk with
    contents := (number, bytes) :: disk.contents.filter fun other => other.1 ≠ number }

@[simp] theorem occupant?_root : disk.occupant? [] = some .directory := rfl

@[simp] theorem occupant?_setEntry_same (location : Location) (entry : Entry) (h : location ≠ []) :
    occupant? (disk.setEntry location entry) location = some entry := by
  rw [occupant?, if_neg h, setEntry, List.lookup_cons, beq_self_eq_true]

@[simp] theorem occupant?_setEntry_other (location location' : Location) (entry : Entry)
    (h : location' ≠ location) :
    occupant? (disk.setEntry location entry) location' = disk.occupant? location' := by
  rw [occupant?, occupant?, setEntry, List.lookup_cons, beq_eq_false_iff_ne.mpr h]
  simp only [lookup_filter_ne, if_neg h]

@[simp] theorem occupant?_clearEntry_same (location : Location) (h : location ≠ []) :
    occupant? (disk.clearEntry location) location = none := by
  simp only [occupant?, clearEntry, if_neg h, lookup_filter_ne, if_pos]

@[simp] theorem occupant?_clearEntry_other (location location' : Location)
    (h : location' ≠ location) :
    occupant? (disk.clearEntry location) location' = disk.occupant? location' := by
  simp only [occupant?, clearEntry, lookup_filter_ne, if_neg h]

@[simp] theorem bytesOf_setBytes_same (number : Nat) (bytes : Bytes) :
    (disk.setBytes number bytes).bytesOf number = bytes := by
  rw [bytesOf, setBytes, List.lookup_cons, beq_self_eq_true]
  rfl

@[simp] theorem bytesOf_setBytes_other (number number' : Nat) (bytes : Bytes)
    (h : number' ≠ number) :
    (disk.setBytes number bytes).bytesOf number' = disk.bytesOf number' := by
  rw [bytesOf, bytesOf, setBytes, List.lookup_cons, beq_eq_false_iff_ne.mpr h]
  simp only [lookup_filter_ne, if_neg h]

@[simp] theorem bytesOf_setEntry (location : Location) (entry : Entry) (number : Nat) :
    (disk.setEntry location entry).bytesOf number = disk.bytesOf number := rfl

@[simp] theorem bytesOf_clearEntry (location : Location) (number : Nat) :
    (disk.clearEntry location).bytesOf number = disk.bytesOf number := rfl

@[simp] theorem occupant?_setBytes (location : Location) (number : Nat) (bytes : Bytes) :
    occupant? (disk.setBytes number bytes) location = disk.occupant? location := rfl

def maxNameLength : Nat := 255

/-- The directory that the parts lead to; every one of them must be a directory. -/
def enter : Location → List String → Except FileFault Location
  | location, [] => .ok location
  | location, part :: parts =>
    if part = "." then enter location parts
    else if part = ".." then enter location.dropLast parts
    else if part.utf8ByteSize > maxNameLength then .error .other
    else
      match disk.occupant? (location ++ [part]) with
      | none => .error .notFound
      | some (.file _) => .error .other
      | some .directory => enter (location ++ [part]) parts

/-- What a path leads to. All its parts but the last must be directories. -/
def locate (path : Path) : Except FileFault Target :=
  if path.isUnusable then .error .other
  else
    match path.parts.getLast? with
    | none => if path.isAbsolute then .ok (.directory []) else .error .notFound
    | some last =>
      match disk.enter [] path.parts.dropLast with
      | .error fault => .error fault
      | .ok location =>
        if last = "." then .ok (.directory location)
        else if last = ".." then .ok (.directory location.dropLast)
        else if last.utf8ByteSize > maxNameLength then .error .other
        else .ok (.name (location ++ [last]) path.endsWithSlash)

def lookUp (path : Path) : Except FileFault (Location × Entry) :=
  match disk.locate path with
  | .error fault => .error fault
  | .ok (.directory location) => .ok (location, .directory)
  | .ok (.name location onlyDirectory) =>
    match disk.occupant? location with
    | none => .error .notFound
    | some (.file number) => if onlyDirectory then .error .other else .ok (location, .file number)
    | some .directory => .ok (location, .directory)

def isDirectory (path : Path) : Bool :=
  match disk.lookUp path with
  | .ok (_, .directory) => true
  | _ => false

def read (path : Path) : Except FileFault Bytes :=
  match disk.lookUp path with
  | .error fault => .error fault
  | .ok (_, .directory) => .error .other
  | .ok (_, .file number) => .ok (disk.bytesOf number)

def makeDirectory (path : Path) : Except FileFault Disk :=
  match disk.locate path with
  | .error fault => .error fault
  | .ok (.directory _) => .error .other
  | .ok (.name location _) =>
    match disk.occupant? location with
    | some _ => .error .other
    | none => .ok (disk.setEntry location .directory)

def ensureDirectory (path : Path) : Except FileFault Unit × Disk :=
  match disk.makeDirectory path with
  | .ok disk => (.ok (), disk)
  | .error fault => if disk.isDirectory path then (.ok (), disk) else (.error fault, disk)

/-- Makes directories in order. Those made before a failure stay. -/
def ensureAll : Disk → List Path → Except FileFault Unit × Disk
  | disk, [] => (.ok (), disk)
  | disk, path :: paths =>
    match disk.ensureDirectory path with
    | (.ok (), disk) => ensureAll disk paths
    | (.error fault, disk) => (.error fault, disk)

def makeDirectories (path : Path) : Except FileFault Unit × Disk :=
  if path.isUnusable then (.error .other, disk)
  else if path.parts = [] then (.ok (), disk)
  else
    let above := path.parentParts
    let prefixes := (List.range above.length).map fun n => above.take (n + 1)
    disk.ensureAll (prefixes.map path.withParts ++ [path])

/-- Opens a file for writing and empties it, or makes a new one; gives its number. -/
def create (path : Path) : Except FileFault (Nat × Disk) :=
  match disk.locate path with
  | .error fault => .error fault
  | .ok (.directory _) => .error .other
  | .ok (.name location onlyDirectory) =>
    if onlyDirectory then .error .other
    else
      match disk.occupant? location with
      | some .directory => .error .other
      | some (.file number) => .ok (number, disk.setBytes number [])
      | none =>
        let number := disk.nextNumber
        .ok (number,
          { (disk.setEntry location (.file number)).setBytes number [] with
            nextNumber := number + 1 })

/-- Writes from the start of an open file; what lies behind the written bytes stays. -/
def write (number : Nat) (bytes : Bytes) : Disk :=
  disk.setBytes number (bytes ++ (disk.bytesOf number).drop bytes.length)

/-- Moves the name of a file. A file that stood at the new path loses its name; a directory refuses
to. Two names of one file both stay. -/
def rename (source target : Path) : Except FileFault Disk :=
  match disk.lookUp source with
  | .error fault => .error fault
  | .ok (_, .directory) => .error .other
  | .ok (from_, .file number) =>
    match disk.locate target with
    | .error fault => .error fault
    | .ok (.directory _) => .error .other
    | .ok (.name location onlyDirectory) =>
      if onlyDirectory ∨ disk.occupant? location = some .directory then .error .other
      else if disk.occupant? location = some (.file number) then .ok disk
      else .ok ((disk.clearEntry from_).setEntry location (.file number))

def remove (path : Path) : Except FileFault Disk :=
  match disk.lookUp path with
  | .error fault => .error fault
  | .ok (_, .directory) => .error .other
  | .ok (location, .file _) => .ok (disk.clearEntry location)

def overwrite (path : Path) (bytes : Bytes) : Except FileFault Disk :=
  match disk.create path with
  | .error fault => .error fault
  | .ok (number, disk) => .ok (disk.write number bytes)

end Disk

end CircuitProof
