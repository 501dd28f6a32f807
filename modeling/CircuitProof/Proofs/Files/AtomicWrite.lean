import CircuitProof.Files.AtomicWrite

/-!
# What a reader finds after a write

Creating, writing and renaming a file never take a directory away, so a path that leads to a name
before such a move leads to the same name after it. A write that reports success has therefore put its
bytes where a reader of the path looks.
-/

namespace CircuitProof

namespace Disk

variable {disk disk' : Disk} {path temporary : Path}

/-- Every directory of the first disk is one of the second. -/
def KeepsDirectories (disk disk' : Disk) : Prop :=
  ∀ location, disk.occupant? location = some .directory →
    disk'.occupant? location = some .directory

theorem keepsDirectories_setBytes (disk : Disk) (number : Nat) (bytes : Bytes) :
    disk.KeepsDirectories (disk.setBytes number bytes) := fun _ h => h

theorem keepsDirectories_setEntry {location : Location} (entry : Entry)
    (hfree : disk.occupant? location ≠ some .directory) :
    disk.KeepsDirectories (disk.setEntry location entry) := by
  intro place h
  have hne : place ≠ location := by
    rintro rfl
    exact hfree h
  rw [occupant?_setEntry_other _ _ _ _ hne, h]

theorem keepsDirectories_clearEntry {location : Location}
    (hfree : disk.occupant? location ≠ some .directory) :
    disk.KeepsDirectories (disk.clearEntry location) := by
  intro place h
  have hne : place ≠ location := by
    rintro rfl
    exact hfree h
  rw [occupant?_clearEntry_other _ _ _ hne, h]

/-- What leads through directories still does when directories have been added. -/
theorem KeepsDirectories.enter (h : disk.KeepsDirectories disk') (parts : List String) :
    ∀ {location reached : Location}, disk.enter location parts = .ok reached →
      disk'.enter location parts = .ok reached := by
  induction parts with
  | nil => exact fun hreached => hreached
  | cons part parts ih =>
    intro location reached hreached
    rw [Disk.enter] at hreached ⊢
    split
    · next hdot =>
      rw [if_pos hdot] at hreached
      exact ih hreached
    · next hdot =>
      rw [if_neg hdot] at hreached
      split
      · next hup =>
        rw [if_pos hup] at hreached
        exact ih hreached
      · next hup =>
        rw [if_neg hup] at hreached
        split
        · next hlong => simp only [if_pos hlong, reduceCtorEq] at hreached
        · next hlong =>
          rw [if_neg hlong] at hreached
          split at hreached
          · cases hreached
          · cases hreached
          · next hoccupant =>
            rw [h _ hoccupant]
            exact ih hreached

/-- A path that leads somewhere goes on doing so. -/
theorem KeepsDirectories.locate (h : disk.KeepsDirectories disk') {target : Target}
    (htarget : disk.locate path = .ok target) : disk'.locate path = .ok target := by
  rw [Disk.locate] at htarget ⊢
  split at htarget
  · cases htarget
  · next husable =>
    rw [if_neg husable]
    split at htarget
    · exact htarget
    · split at htarget
      · cases htarget
      · next henter =>
        rw [h.enter _ henter]
        exact htarget

/-- The root is no name. -/
theorem name_ne_root {location : Location} {onlyDirectory : Bool}
    (hname : disk.locate path = .ok (.name location onlyDirectory)) : location ≠ [] := by
  rw [locate] at hname
  repeat' split at hname
  all_goals
    cases hname
  exact List.append_ne_nil_of_right_ne_nil _ (List.cons_ne_nil _ _)

/-- A path that names a file. -/
theorem lookUp_of_name {location : Location} {number : Nat}
    (hname : disk.locate path = .ok (.name location false))
    (hfile : disk.occupant? location = some (.file number)) :
    disk.lookUp path = .ok (location, .file number) := by
  simp only [lookUp, hname, hfile, Bool.false_eq_true, if_false]

theorem lookUp_file_occupant {location : Location} {number : Nat}
    (hfile : disk.lookUp path = .ok (location, .file number)) :
    disk.locate path = .ok (.name location false) ∧
      disk.occupant? location = some (.file number) := by
  rw [lookUp] at hfile
  split at hfile
  · cases hfile
  · cases hfile
  · next hname =>
    split at hfile
    · cases hfile
    · next hoccupant =>
      split at hfile
      · cases hfile
      · next honly =>
        cases hfile
        rw [Bool.not_eq_true] at honly
        exact ⟨honly ▸ hname, hoccupant⟩
    · cases hfile

/-- A created file stands at its path and is empty. -/
theorem lookUp_of_create {number : Nat} (h : disk.create path = .ok (number, disk')) :
    (∃ location, disk'.lookUp path = .ok (location, .file number)) ∧
      disk'.bytesOf number = [] := by
  rw [create] at h
  split at h
  · cases h
  · cases h
  · next location onlyDirectory hname =>
    split at h
    · cases h
    · next honly =>
      rw [Bool.not_eq_true] at honly
      subst honly
      split at h
      · cases h
      · next hoccupant =>
        cases h
        have hkeeps := disk.keepsDirectories_setBytes number []
        exact ⟨⟨location, lookUp_of_name (hkeeps.locate hname) hoccupant⟩,
          bytesOf_setBytes_same _ _ _⟩
      · next hoccupant =>
        cases h
        have hkeeps : disk.KeepsDirectories
            { (disk.setEntry location (.file disk.nextNumber)).setBytes disk.nextNumber [] with
              nextNumber := disk.nextNumber + 1 } :=
          keepsDirectories_setEntry _ (by rw [hoccupant]; exact nofun)
        exact ⟨⟨location, lookUp_of_name (hkeeps.locate hname)
          (occupant?_setEntry_same disk location _ (name_ne_root hname))⟩,
          bytesOf_setBytes_same _ _ _⟩

theorem lookUp_write {location : Location} {number : Nat} (written : Nat) (bytes : Bytes)
    (h : disk.lookUp path = .ok (location, .file number)) :
    (disk.write written bytes).lookUp path = .ok (location, .file number) := by
  obtain ⟨hname, hoccupant⟩ := lookUp_file_occupant h
  have hkeeps : disk.KeepsDirectories (disk.write written bytes) := keepsDirectories_setBytes _ _ _
  exact lookUp_of_name (hkeeps.locate hname) hoccupant

/-- Writing to an empty file leaves exactly the bytes that are written. -/
theorem bytesOf_write {number : Nat} (bytes : Bytes) (hempty : disk.bytesOf number = []) :
    (disk.write number bytes).bytesOf number = bytes := by
  rw [write, bytesOf_setBytes_same, hempty, List.drop_nil, List.append_nil]

/-- A renamed file stands at the new path with the bytes that it had. -/
theorem read_of_rename {location : Location} {number : Nat}
    (hsource : disk.lookUp temporary = .ok (location, .file number))
    (h : disk.rename temporary path = .ok disk') : disk'.read path = .ok (disk.bytesOf number) := by
  obtain ⟨-, hoccupant⟩ := lookUp_file_occupant hsource
  simp only [rename, hsource] at h
  split at h
  · cases h
  · cases h
  · next place onlyDirectory hname =>
    split at h
    · cases h
    · next hallowed =>
      obtain ⟨honly, hfree⟩ := not_or.mp hallowed
      rw [Bool.not_eq_true] at honly
      subst honly
      split at h
      · next hsame =>
        cases h
        simp only [read, lookUp_of_name hname hsame]
      · cases h
        have hcleared : disk.KeepsDirectories (disk.clearEntry location) :=
          keepsDirectories_clearEntry (by rw [hoccupant]; exact nofun)
        have hset : (disk.clearEntry location).KeepsDirectories
            ((disk.clearEntry location).setEntry place (.file number)) := by
          refine keepsDirectories_setEntry _ fun hplace => hfree ?_
          by_cases hsame : place = location
          · rw [hsame, occupant?_clearEntry_same _ _ (hsame ▸ name_ne_root hname)] at hplace
            cases hplace
          · rwa [occupant?_clearEntry_other _ _ _ hsame] at hplace
        have hfound := lookUp_of_name (hset.locate (hcleared.locate hname))
          (occupant?_setEntry_same _ place (.file number) (name_ne_root hname))
        simp only [read, hfound, bytesOf_setEntry, bytesOf_clearEntry]

end Disk

namespace Writer

variable {w : Writer} {disk disk' : Disk}

section
variable (path temporary : Path) (bytes : Bytes)

theorem step_makeParents (disk : Disk) :
    (Writer.mk path temporary bytes .makeParents).step none disk =
      match disk.makeDirectories path.parent with
      | (.ok (), disk) => (⟨path, temporary, bytes, .create⟩, disk)
      | (.error fault, disk) => (⟨path, temporary, bytes, .done (.error fault)⟩, disk) := by rfl

theorem step_create (disk : Disk) :
    (Writer.mk path temporary bytes .create).step none disk =
      match disk.create temporary with
      | .ok (number, disk) => (⟨path, temporary, bytes, .write number⟩, disk)
      | .error fault => (⟨path, temporary, bytes, .cleanUp fault⟩, disk) := by rfl

theorem step_rename (disk : Disk) :
    (Writer.mk path temporary bytes .rename).step none disk =
      match disk.rename temporary path with
      | .ok disk => (⟨path, temporary, bytes, .done (.ok ())⟩, disk)
      | .error fault => (⟨path, temporary, bytes, .cleanUp fault⟩, disk) := by rfl

/-- The removal of the temporary file may fail; the fault that is reported is the first one. -/
theorem step_cleanUp (fault : FileFault) (injected : Option FileFault) (disk : Disk) :
    ((Writer.mk path temporary bytes (.cleanUp fault)).step injected disk).1 =
      ⟨path, temporary, bytes, .done (.error fault)⟩ := by
  unfold step
  dsimp only
  split <;> rfl

end

/-- The writer has met a fault: it is about to remove its temporary file, or has reported the
fault. -/
def HasFailed (w : Writer) : Prop :=
  ∃ fault, w.phase = .cleanUp fault ∨ w.phase = .done (.error fault)

/-- No move makes up for a fault. -/
theorem HasFailed.step (h : w.HasFailed) (injected : Option FileFault) (disk : Disk) :
    (w.step injected disk).1.HasFailed := by
  obtain ⟨path, temporary, bytes, phase⟩ := w
  obtain ⟨fault, rfl | rfl⟩ := h
  · rw [step_cleanUp]
    exact ⟨fault, .inr rfl⟩
  · exact ⟨fault, .inr rfl⟩

/-- A fault is never made good again. -/
theorem HasFailed.run (h : w.HasFailed) (moves : Nat) (disk : Disk) :
    (w.run (fun _ => none) moves disk).1.HasFailed := by
  induction moves generalizing w disk with
  | zero => exact h
  | succ moves ih =>
    rw [Writer.run]
    split
    · exact h
    · exact ih (h.step _ disk) _

/-- With no fault injected the writer reports success within the given number of moves, and leaves
the second disk. -/
def Succeeds (moves : Nat) (w : Writer) (disk disk' : Disk) : Prop :=
  (w.run (fun _ => none) moves disk).1.result? = some (.ok ()) ∧
    (w.run (fun _ => none) moves disk).2 = disk'

theorem HasFailed.not_succeeds (h : w.HasFailed) (moves : Nat) : ¬ w.Succeeds moves disk disk' := by
  rintro ⟨hresult, -⟩
  have hfailed := h.run moves disk
  rw [result?] at hresult
  obtain ⟨fault, h | h⟩ := hfailed <;>
  · rw [h] at hresult
    cases hresult

theorem succeeds_succ_iff (hrunning : w.result? = none) {moves : Nat} :
    w.Succeeds (moves + 1) disk disk' ↔
      (w.step none disk).1.Succeeds moves (w.step none disk).2 disk' := by
  rw [Succeeds, run, hrunning]
  rfl

theorem succeeds_done_iff {moves : Nat} (hdone : w.phase = .done (.ok ())) :
    w.Succeeds moves disk disk' ↔ disk = disk' := by
  have hresult : w.result? = some (.ok ()) := by rw [result?, hdone]
  cases moves with
  | zero => exact ⟨And.right, And.intro hresult⟩
  | succ moves =>
    rw [Succeeds, run, hresult]
    exact ⟨And.right, And.intro hresult⟩

/-- Writing, flushing and syncing cannot fail unless made to. -/
theorem succeeds_write_iff {path temporary : Path} {bytes : Bytes} {number moves : Nat} :
    (Writer.mk path temporary bytes (.write number)).Succeeds (moves + 3) disk disk' ↔
      (Writer.mk path temporary bytes .rename).Succeeds moves (disk.write number bytes) disk' := by
  rw [succeeds_succ_iff rfl, succeeds_succ_iff rfl, succeeds_succ_iff rfl]
  rfl

/-- A writer succeeds if it makes the directories, creates the temporary file, writes to it and renames
it, and in no other way. -/
theorem succeeds_iff {suffix : String} {path : Path} {bytes : Bytes} :
    (start suffix path bytes).Succeeds maxMoves disk disk' ↔
      ∃ below number opened, disk.makeDirectories path.parent = (.ok (), below) ∧
        below.create (path.sibling suffix) = .ok (number, opened) ∧
        (opened.write number bytes).rename (path.sibling suffix) path = .ok disk' := by
  rw [maxMoves, succeeds_succ_iff rfl]
  constructor
  · intro h
    rw [start, step_makeParents] at h
    split at h
    · next below hparents =>
      rw [succeeds_succ_iff rfl] at h
      rw [step_create] at h
      split at h
      · next number opened hcreate =>
        rw [succeeds_write_iff, succeeds_succ_iff rfl, step_rename] at h
        split at h
        · next renamed hrename =>
          exact ⟨below, number, opened, hparents, hcreate, (succeeds_done_iff rfl).mp h ▸ hrename⟩
        · exact absurd h (HasFailed.not_succeeds ⟨_, .inl rfl⟩ _)
      · exact absurd h (HasFailed.not_succeeds ⟨_, .inl rfl⟩ _)
    · exact absurd h (HasFailed.not_succeeds ⟨_, .inr rfl⟩ _)
  · rintro ⟨below, number, opened, hparents, hcreate, hrename⟩
    simp only [start, step_makeParents, hparents]
    rw [succeeds_succ_iff rfl]
    simp only [step_create, hcreate]
    rw [succeeds_write_iff, succeeds_succ_iff rfl]
    simp only [step_rename, hrename]
    exact (succeeds_done_iff rfl).mpr rfl

end Writer

namespace Disk

variable {disk disk' : Disk} {path : Path}

/-- A write succeeds if and only if all of its moves do. -/
theorem writeAtomic_eq_ok_iff {suffix : String} {bytes : Bytes} :
    disk.writeAtomic suffix path bytes = (.ok (), disk') ↔
      (Writer.start suffix path bytes).Succeeds Writer.maxMoves disk disk' := by
  rw [writeAtomic, writeAtomicWith, Writer.Succeeds]
  generalize (Writer.start suffix path bytes).run (fun _ => none) Writer.maxMoves disk = outcome
  obtain ⟨w, left⟩ := outcome
  cases hreported : w.result? with
  | none => simp [hreported]
  | some result => simp [hreported]

/-- After a write that reports success the path reads as the bytes that were written. -/
theorem read_of_writeAtomic {suffix : String} {bytes : Bytes}
    (h : disk.writeAtomic suffix path bytes = (.ok (), disk')) : disk'.read path = .ok bytes := by
  obtain ⟨below, number, opened, -, hcreate, hrename⟩ :=
    Writer.succeeds_iff.mp (writeAtomic_eq_ok_iff.mp h)
  obtain ⟨⟨location, hfile⟩, hempty⟩ := lookUp_of_create hcreate
  rw [read_of_rename (lookUp_write number bytes hfile) hrename, bytesOf_write bytes hempty]

end Disk

end CircuitProof
