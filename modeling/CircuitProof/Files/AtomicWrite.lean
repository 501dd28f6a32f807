import CircuitProof.Files.Disk

/-!
# Writing a file in one step, as seen by readers

The bytes go to a temporary file beside the path, which is then renamed over it. A writer is a small
machine whose moves are the single file operations, so that moves of several writers can interleave
and any move can be made to fail. Whatever fails once the parent directories exist is followed by the
removal of the temporary file.
-/

namespace CircuitProof

inductive WritePhase where
  | makeParents
  | create
  | write (number : Nat)
  | flush
  | sync
  | rename
  /-- Removes the temporary file because of an earlier fault. -/
  | cleanUp (fault : FileFault)
  | done (result : Except FileFault Unit)

structure Writer where
  path : Path
  temporary : Path
  bytes : Bytes
  phase : WritePhase

namespace Writer

/-- A writer for a path. The suffix of the temporary file's name is the same for all the writers of a
process. -/
def start (suffix : String) (path : Path) (bytes : Bytes) : Writer :=
  ⟨path, path.sibling suffix, bytes, .makeParents⟩

variable (w : Writer)

def result? : Option (Except FileFault Unit) :=
  match w.phase with
  | .done result => some result
  | _ => none

def inPhase (phase : WritePhase) : Writer := { w with phase := phase }

/-- The next move on a disk. With an injected fault the operation of the move is not carried out and
fails with it; the removal of the temporary file is never made to fail. -/
def step (injected : Option FileFault) (disk : Disk) : Writer × Disk :=
  match w.phase, injected with
  | .done result, _ => (w.inPhase (.done result), disk)
  | .cleanUp fault, _ =>
    match disk.remove w.temporary with
    | .ok disk => (w.inPhase (.done (.error fault)), disk)
    | .error _ => (w.inPhase (.done (.error fault)), disk)
  | .makeParents, some fault => (w.inPhase (.done (.error fault)), disk)
  | _, some fault => (w.inPhase (.cleanUp fault), disk)
  | .makeParents, none =>
    match disk.makeDirectories w.path.parent with
    | (.ok (), disk) => (w.inPhase .create, disk)
    | (.error fault, disk) => (w.inPhase (.done (.error fault)), disk)
  | .create, none =>
    match disk.create w.temporary with
    | .ok (number, disk) => (w.inPhase (.write number), disk)
    | .error fault => (w.inPhase (.cleanUp fault), disk)
  | .write number, none => (w.inPhase .flush, disk.write number w.bytes)
  | .flush, none => (w.inPhase .sync, disk)
  | .sync, none => (w.inPhase .rename, disk)
  | .rename, none =>
    match disk.rename w.temporary w.path with
    | .ok disk => (w.inPhase (.done (.ok ())), disk)
    | .error fault => (w.inPhase (.cleanUp fault), disk)

/-- Moves until done, at most the given number of times; `inject` gives the fault of each phase. -/
def run (inject : WritePhase → Option FileFault) : Nat → Writer → Disk → Writer × Disk
  | 0, w, disk => (w, disk)
  | moves + 1, w, disk =>
    match w.result? with
    | some _ => (w, disk)
    | none =>
      let (w, disk) := w.step (inject w.phase) disk
      run inject moves w disk

/-- The number of moves that no writer exceeds. -/
def maxMoves : Nat := 8

end Writer

namespace Disk

def writeAtomicWith (inject : WritePhase → Option FileFault) (suffix : String) (disk : Disk)
    (path : Path) (bytes : Bytes) : Except FileFault Unit × Disk :=
  let (w, disk) := (Writer.start suffix path bytes).run inject Writer.maxMoves disk
  (w.result?.getD (.error .other), disk)

def writeAtomic (suffix : String) (disk : Disk) (path : Path) (bytes : Bytes) :
    Except FileFault Unit × Disk :=
  disk.writeAtomicWith (fun _ => none) suffix path bytes

end Disk

end CircuitProof
