import CircuitProof.Bn254.Engine
import CircuitProof.Command.Run
import CircuitProof.Contract.Verifier

/-!
# The program

Reads the command line, runs the command on the files of the machine with fresh randomness, and exits
with zero on success, one on failure and two when the command line is not understood.
-/

namespace CircuitProof

namespace Program

def usage : String :=
  "Compile the `A + B = Sum` circuit, prove it and check the result.\n\n" ++
  "Usage: circuit-proof [--timings] <command>\n\n" ++
  "Commands:\n" ++
  "  demo    [-o, --out-dir DIR] [--seed N] [--a N] [--b N] [--sum N]\n" ++
  "  verify  [-d, --dir DIR] [--vk FILE] [--proof FILE] [--input FILE]\n" ++
  "  help    [COMMAND]\n\n" ++
  "Options:\n" ++
  "      --timings  Print how long the command took\n" ++
  "  -h, --help     Print this text\n" ++
  "  -V, --version  Print the version"

def versionText : String := "circuit-proof 0.1.0"

def faultOf : IO.Error → FileFault
  | .noFileOrDirectory .. => .notFound
  | _ => .other

def attempt {α : Type} (action : IO α) : IO (Except FileFault α) := do
  try
    return .ok (← action)
  catch e =>
    return .error (faultOf e)

def readBytes (path : String) : IO Bytes := do
  let bytes ← IO.FS.readBinFile path
  return bytes.data.toList

def writeBytes (suffix path : String) (bytes : Bytes) : IO Unit := do
  let path := Path.ofString path
  let parents := path.parent
  let temporary := (path.sibling suffix).text
  if parents.parts ≠ [] then IO.FS.createDirAll parents.text
  try
    IO.FS.withFile temporary .write fun file => do
      file.write ⟨bytes.toArray⟩
      file.flush
    IO.FS.rename temporary path.text
  catch e =>
    try IO.FS.removeFile temporary catch _ => pure ()
    throw e

def files (suffix : String) : Command.FileAccess IO where
  read path := attempt (readBytes path)
  write path bytes := attempt (writeBytes suffix path bytes)

/-- A keystream with a key from the machine. -/
def freshSource : IO Source := do
  let seed ← IO.getRandomBytes 32
  return .keystream (ChaCha.Key.ofSeed seed.data.toList) 0

def freshSuffix : IO String := do
  let bytes ← IO.getRandomBytes 4
  return ".tmp-" ++ decimal (ofLittleEndian bytes.data.toList)

def report (outcome : Except Command.Error Unit) : IO UInt32 := do
  match outcome with
  | .ok () =>
    IO.println "proof verified"
    return 0
  | .error e =>
    IO.eprintln ("Error: " ++ e.message)
    return 1

def run (request : Command.Request) : IO UInt32 := do
  match request with
  | .help =>
    IO.println usage
    return 0
  | .version =>
    IO.println versionText
    return 0
  | .demo options =>
    let files := files (← freshSuffix)
    report (← Command.demo files bn254 Contract.text (← freshSource) options)
  | .verify options =>
    let files := files (← freshSuffix)
    report (← Command.verify files bn254 options)

end Program

end CircuitProof

open CircuitProof in
def main (arguments : List String) : IO UInt32 := do
  match Command.ofArguments? arguments with
  | none =>
    IO.eprintln Program.usage
    return 2
  | some invocation =>
    let start ← IO.monoMsNow
    let code ← Program.run invocation.request
    if invocation.timings then
      IO.eprintln ("took " ++ decimal ((← IO.monoMsNow) - start) ++ " ms")
    return code
