import CircuitProof.Files.Disk

/-!
# What a directory holds
-/

namespace CircuitProof

namespace Disk

/-- The names in a directory with what they stand for, in the order of their characters. -/
def children (disk : Disk) (location : Location) : List (String × Entry) :=
  let found := disk.entries.filterMap fun (place, entry) =>
    if place.dropLast = location then place.getLast?.map fun name => (name, entry) else none
  found.mergeSort fun x y => !(y.1 < x.1)

/-- The names below a directory, each directory's with a slash behind and before what it holds. At
most `depth` levels are listed. -/
def listing (disk : Disk) : Nat → Location → String → List String
  | 0, _, _ => []
  | depth + 1, location, base =>
    (disk.children location).flatMap fun (name, entry) =>
      match entry with
      | .file _ => [base ++ name]
      | .directory =>
        (base ++ name ++ "/") :: listing disk depth (location ++ [name]) (base ++ name ++ "/")

/-- Everything below the directory at a path. Each directory is opened by a path that goes on from the
given one, and one whose path is too long cannot be opened. -/
def listAll (disk : Disk) (path : Path) : Except FileFault (List String) :=
  match disk.lookUp path with
  | .error fault => .error fault
  | .ok (_, .file _) => .error .other
  | .ok (location, .directory) =>
    let names := disk.listing (disk.entries.length + 1) location ""
    let isTooLong (name : String) : Bool :=
      name.toList.getLast? = some '/' &&
        (Path.join path.text name).utf8ByteSize > Path.maxLength + 1
    if names.any isTooLong then .error .other else .ok names

end Disk

end CircuitProof
