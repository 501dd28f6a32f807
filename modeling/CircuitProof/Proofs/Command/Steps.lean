import CircuitProof.Command.Run

/-!
# Commands that run on a disk

A command on a disk that is a value gives an outcome and the disk that it leaves. A step that
succeeds hands its disk to the next one; a step that fails ends the run with the disk as it is.
-/

namespace CircuitProof

namespace Command

variable {α β ε : Type}

/-- The outcome of a computation on a disk, with the disk that it leaves. -/
def runOn (step : Steps (StateM Disk) α) (disk : Disk) : Except Error α × Disk :=
  StateT.run (ExceptT.run step) disk

variable {step : Steps (StateM Disk) α} {f : α → Steps (StateM Disk) β} {disk disk' : Disk}

@[simp] theorem runOn_pure (a : α) (disk : Disk) : runOn (pure a) disk = (.ok a, disk) := rfl

/-- A step that fails ends the run, and the disk is left as it was then. -/
theorem runOn_bind (step : Steps (StateM Disk) α) (f : α → Steps (StateM Disk) β) (disk : Disk) :
    runOn (step >>= f) disk =
      match runOn step disk with
      | (.ok a, disk) => runOn (f a) disk
      | (.error e, disk) => (.error e, disk) := by
  cases hrun : runOn step disk with
  | mk outcome left =>
    simp only [runOn, ExceptT.run_bind, StateT.run_bind] at hrun ⊢
    change (StateT.run (ExceptT.run step) disk >>= _) = _
    rw [show StateT.run (ExceptT.run step) disk = (outcome, left) from hrun]
    cases outcome <;> rfl

theorem runOn_bind_of_ok {a : α} (h : runOn step disk = (.ok a, disk')) :
    runOn (step >>= f) disk = runOn (f a) disk' := by
  rw [runOn_bind, h]

theorem runOn_bind_of_error {e : Error} (h : runOn step disk = (.error e, disk')) :
    runOn (step >>= f) disk = (.error e, disk') := by
  rw [runOn_bind, h]

theorem runOn_result_ok (cause : ε → Cause) (a : α) (disk : Disk) :
    runOn (result cause (.ok a)) disk = (.ok a, disk) := rfl

theorem runOn_result_error (cause : ε → Cause) (e : ε) (disk : Disk) :
    runOn (result cause (.error e) : Steps (StateM Disk) α) disk =
      (.error ⟨none, cause e⟩, disk) := rfl

/-- A context changes what is said of a failure, not the failure. -/
theorem runOn_inContext (context : String) (step : Steps (StateM Disk) α) (disk : Disk) :
    runOn (inContext context step) disk =
      match runOn step disk with
      | (.ok a, disk) => (.ok a, disk)
      | (.error e, disk) => (.error { e with context := some context }, disk) := by
  cases hrun : runOn step disk with
  | mk outcome left =>
    change StateT.run (ExceptT.run (tryCatch step _)) disk = _
    rw [ExceptT.run_tryCatch, StateT.run_bind,
      show StateT.run (ExceptT.run step) disk = (outcome, left) from hrun]
    cases outcome <;> rfl

theorem runOn_inContext_of_ok {context : String} {a : α} (h : runOn step disk = (.ok a, disk')) :
    runOn (inContext context step) disk = (.ok a, disk') := by
  rw [runOn_inContext, h]

/-! ## Files -/

variable {suffix path : String} {bytes : Bytes}

theorem runOn_writeFile (h : disk.writeAtomic suffix (.ofString path) bytes = (.ok (), disk')) :
    runOn (writeFile (.ofDisk suffix) path bytes) disk = (.ok (), disk') := by
  have hwrite : runOn (liftM ((FileAccess.ofDisk suffix).write path bytes)) disk =
      (.ok (.ok ()), disk') := congrArg (fun result => (Except.ok result.1, result.2)) h
  exact runOn_bind_of_ok hwrite

theorem runOn_readFile (h : disk.read (.ofString path) = .ok bytes) :
    runOn (readFile (.ofDisk suffix) path) disk = (.ok bytes, disk) := by
  have hread : runOn (liftM ((FileAccess.ofDisk suffix).read path)) disk = (.ok (.ok bytes), disk) :=
    congrArg (fun result => (Except.ok result, disk)) h
  exact runOn_bind_of_ok hread

/-- A file that decodes is loaded. -/
theorem runOn_load {cause : ε → ArtifactError} {decode : Bytes → Except ε α} {a : α}
    (h : disk.read (.ofString path) = .ok bytes) (hdecode : decode bytes = .ok a) :
    runOn (load (.ofDisk suffix) cause decode path) disk = (.ok a, disk) := by
  rw [load, runOn_inContext, runOn_bind_of_ok (runOn_readFile h), hdecode]
  rfl

/-- A file that does not decode is reported with its path. -/
theorem runOn_load_of_error {cause : ε → ArtifactError} {decode : Bytes → Except ε α} {e : ε}
    (h : disk.read (.ofString path) = .ok bytes) (hdecode : decode bytes = .error e) :
    runOn (load (.ofDisk suffix) cause decode path) disk =
      (.error ⟨some ("loading " ++ path), .artifact (cause e)⟩, disk) := by
  rw [load, runOn_inContext, runOn_bind_of_ok (runOn_readFile h), hdecode]
  rfl

end Command

end CircuitProof
