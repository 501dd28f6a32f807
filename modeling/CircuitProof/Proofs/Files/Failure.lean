import CircuitProof.Proofs.Files.Parents

/-!
# What a failed write leaves

Every move of a writer can fail, and a move that fails may have done a part of its work. Until the
rename nothing but the temporary file differs from what was there, directories above the path aside, and
a writer that fails removes it. So the path leads to what it led to before the call, unless `..` in it
made it lead nowhere and a directory that was made for it changes that.
-/

namespace CircuitProof

namespace Disk

variable {disk disk' below later : Disk} {path temporary : Path}

/-! ## What the operations do to a tree -/

/-- A file is opened only where a file can stand. -/
theorem exists_opened {number : Nat} (h : disk.create path = .ok (number, disk')) :
    ∃ source, disk.locate path = .ok (.name source false) ∧ disk.Opened disk' source number := by
  obtain ⟨source, hname, hfree⟩ := exists_name_of_create h
  obtain ⟨number', opened, hcreate, hopened⟩ := exists_create hname hfree
  obtain ⟨rfl, rfl⟩ := Prod.mk.inj (Except.ok.inj (h.symm.trans hcreate))
  exact ⟨source, hname, hopened⟩

/-- A file that is renamed moves, unless the new name was one of its names. -/
theorem exists_moved (h : disk.rename temporary path = .ok disk') :
    ∃ source target number, disk.lookUp temporary = .ok (source, .file number) ∧
      disk.locate path = .ok (.name target false) ∧
      (disk.occupant? target = some (.file number) ∧ disk' = disk ∨
        disk.Moved disk' source target number) := by
  obtain ⟨source, number, hsource⟩ :
      ∃ source number, disk.lookUp temporary = .ok (source, .file number) := by
    rw [rename] at h
    split at h
    · cases h
    · cases h
    · next source number hsource => exact ⟨source, number, hsource⟩
  obtain ⟨hname, hfile⟩ := lookUp_file_occupant hsource
  obtain ⟨target, htarget, hfree⟩ := exists_name_of_rename h
  refine ⟨source, target, number, hsource, htarget, ?_⟩
  by_cases hother : disk.occupant? target = some (.file number)
  · simp only [rename, hsource, htarget, hother] at h
    simp at h
    exact .inl ⟨hother, h.symm⟩
  · obtain ⟨moved, hrename, hmoved⟩ := exists_rename hname htarget hfile hfree hother
    obtain rfl := Except.ok.inj (h.symm.trans hrename)
    exact .inr hmoved

/-- What stands at a place after a name has been taken away stood there before. -/
theorem occupant?_of_clearEntry {source place : Location} {entry : Entry} (hsource : source ≠ [])
    (h : (disk.clearEntry source).occupant? place = some entry) : disk.occupant? place = some entry := by
  by_cases hne : place = source
  · rw [hne, occupant?_clearEntry_same _ _ hsource] at h
    cases h
  · rwa [occupant?_clearEntry_other _ _ _ hne] at h

namespace IsTree

theorem create (h : disk.IsTree) {number : Nat} (hcreate : disk.create path = .ok (number, disk')) :
    disk'.IsTree := by
  obtain ⟨source, hname, hopened⟩ := exists_opened hcreate
  refine h.of_keepsDirectories hopened.sameDirectories.1 (hopened.numbered h.numbered) ?_
  intro place entry hplace hnone
  rw [hopened.occupant] at hplace
  split at hplace
  · next heq =>
    rw [heq]
    exact h.directory_of_locate hname
  · rw [hnone] at hplace
    cases hplace

theorem write (h : disk.IsTree) (number : Nat) (bytes : Bytes) : (disk.write number bytes).IsTree :=
  ⟨h.numbered, h.above⟩

/-- What is renamed goes into a directory, so the disk stays a tree. -/
theorem rename (h : disk.IsTree) (hrename : disk.rename temporary path = .ok disk') :
    disk'.IsTree := by
  obtain ⟨source, target, number, -, htarget, ⟨-, rfl⟩ | hmoved⟩ := exists_moved hrename
  · exact h
  refine h.of_keepsDirectories hmoved.sameDirectories.1 (hmoved.numbered h.numbered) ?_
  intro place entry hplace hnone
  rw [hmoved.occupant] at hplace
  split at hplace
  · next heq =>
    rw [heq]
    exact h.directory_of_locate htarget
  · split at hplace
    · cases hplace
    · rw [hnone] at hplace
      cases hplace

theorem remove (h : disk.IsTree) (hremove : disk.remove path = .ok disk') : disk'.IsTree := by
  rw [Disk.remove] at hremove
  split at hremove
  · cases hremove
  · cases hremove
  · next source number hsource =>
    cases hremove
    obtain ⟨hname, hfile⟩ := lookUp_file_occupant hsource
    have hroot := name_ne_root hname
    refine h.of_keepsDirectories (keepsDirectories_clearEntry (by rw [hfile]; exact nofun)) ?_ ?_
    · exact fun place number hplace => h.numbered place number (occupant?_of_clearEntry hroot hplace)
    · intro place entry hplace hnone
      rw [occupant?_of_clearEntry hroot hplace] at hnone
      cases hnone

end IsTree

/-! ## The temporary file -/

/-- The disks differ in nothing but what stands where the temporary path leads. -/
structure Beside (below disk : Disk) (temporary : Path) : Prop where
  sameDirectories : below.SameDirectories disk
  occupant : ∀ place, ¬ below.Leads temporary place → disk.occupant? place = below.occupant? place
  bytesOf : ∀ place number, ¬ below.Leads temporary place →
    below.occupant? place = some (.file number) → disk.bytesOf number = below.bytesOf number

namespace Beside

theorem refl (disk : Disk) (temporary : Path) : disk.Beside disk temporary :=
  ⟨⟨fun _ h => h, fun _ h => h⟩, fun _ _ => rfl, fun _ _ _ _ => rfl⟩

theorem fileAt? (h : below.Beside disk temporary) {place : Location}
    (hplace : ¬ below.Leads temporary place) : disk.fileAt? place = below.fileAt? place := by
  rw [Disk.fileAt?, Disk.fileAt?, h.occupant place hplace]
  cases hoccupant : below.occupant? place with
  | none => rfl
  | some entry =>
    cases entry with
    | directory => rfl
    | file number => exact congrArg some (h.bytesOf place number hplace hoccupant)

/-- Taking away the temporary file, or finding none there. -/
theorem remove (h : below.Beside disk temporary) :
    (∀ later, disk.remove temporary = .ok later →
      below.Beside later temporary ∧ ∀ held, later.read temporary ≠ .ok held) ∧
    (∀ fault, disk.remove temporary = .error fault → ∀ held, disk.read temporary ≠ .ok held) := by
  constructor
  · intro later hremove
    rw [Disk.remove] at hremove
    split at hremove
    · cases hremove
    · cases hremove
    · next source number hsource =>
      cases hremove
      obtain ⟨hname, hfile⟩ := lookUp_file_occupant hsource
      have hleads : below.Leads temporary source := h.sameDirectories.leads_iff.mp ⟨_, hname⟩
      have hkeeps : disk.KeepsDirectories (disk.clearEntry source) :=
        keepsDirectories_clearEntry (by rw [hfile]; exact nofun)
      have hbehind : (disk.clearEntry source).KeepsDirectories disk :=
        fun _ => occupant?_of_clearEntry (name_ne_root hname)
      refine ⟨⟨⟨h.sameDirectories.1.trans hkeeps, hbehind.trans h.sameDirectories.2⟩, ?_, ?_⟩, ?_⟩
      · intro place hplace
        have hne : place ≠ source := by
          rintro rfl
          exact hplace hleads
        rw [occupant?_clearEntry_other _ _ _ hne, h.occupant place hplace]
      · exact fun place other hplace hother => h.bytesOf place other hplace hother
      · intro held hread
        rw [read_eq_ok_iff (hkeeps.locate hname), Disk.fileAt?,
          occupant?_clearEntry_same _ _ (name_ne_root hname)] at hread
        cases hread
  · intro fault hremove held hread
    rw [Disk.remove] at hremove
    rw [Disk.read] at hread
    split at hremove
    · next hlookUp =>
      rw [hlookUp] at hread
      cases hread
    · next hlookUp =>
      rw [hlookUp] at hread
      cases hread
    · cases hremove

end Beside

/-- The temporary path is that of a file, and no other name had its number. -/
def Owns (below disk : Disk) (temporary : Path) (number : Nat) : Prop :=
  ∃ source, disk.lookUp temporary = .ok (source, .file number) ∧
    ∀ place, place ≠ source → below.occupant? place ≠ some (.file number)

/-- Creating the temporary file. -/
theorem beside_create {number : Nat} (hbelow : below.Numbered) (hunshared : below.Unshared temporary)
    (h : below.create temporary = .ok (number, disk)) :
    below.Beside disk temporary ∧ below.Owns disk temporary number ∧ disk.bytesOf number = [] := by
  obtain ⟨source, hname, hopened⟩ := exists_opened h
  have hleads : ∀ {place}, ¬ below.Leads temporary place → place ≠ source := by
    rintro place hplace rfl
    exact hplace ⟨_, hname⟩
  have hnumber {place : Location} {other : Nat} (hplace : place ≠ source)
      (hfile : below.occupant? place = some (.file other)) : other ≠ number :=
    hopened.number_ne hbelow (hunshared.sole hname) hplace hfile
  refine ⟨⟨hopened.sameDirectories, fun place hplace => ?_, fun place other hplace hfile => ?_⟩,
    ⟨source, ?_, fun place hplace hfile => hnumber hplace hfile rfl⟩, ?_⟩
  · rw [hopened.occupant, if_neg (hleads hplace)]
  · rw [hopened.contents, if_neg (hnumber (hleads hplace) hfile)]
  · exact lookUp_of_name (hopened.sameDirectories.1.locate hname) hopened.here
  · rw [hopened.contents, if_pos rfl]

/-- Writing to the temporary file. -/
theorem Beside.write {number : Nat} (h : below.Beside disk temporary)
    (howns : below.Owns disk temporary number) (bytes : Bytes) :
    below.Beside (disk.write number bytes) temporary ∧
      below.Owns (disk.write number bytes) temporary number := by
  obtain ⟨source, hsource, hothers⟩ := howns
  obtain ⟨hname, -⟩ := lookUp_file_occupant hsource
  refine ⟨⟨⟨h.sameDirectories.1, h.sameDirectories.2⟩, h.occupant, ?_⟩,
    source, lookUp_write number bytes hsource, hothers⟩
  intro place other hplace hfile
  have hne : other ≠ number := by
    rintro rfl
    refine hothers place ?_ hfile
    rintro rfl
    exact hplace (h.sameDirectories.leads_iff.mp ⟨_, hname⟩)
  rw [bytesOf_write_other _ _ hne, h.bytesOf place other hplace hfile]

/-- The disk after a write that reported success. -/
structure Stored (below disk : Disk) (path temporary : Path) (bytes : Bytes) : Prop where
  keepsDirectories : below.KeepsDirectories disk
  written : disk.read path = .ok bytes
  gone : disk.lookUp temporary = .error .notFound
  others : ∀ place, ¬ disk.Leads path place → ¬ disk.Leads temporary place →
    disk.fileAt? place = below.fileAt? place

/-- Renaming the temporary file. -/
theorem Beside.rename {suffix : String} (hsuffix : suffix ≠ "") {number : Nat}
    (h : below.Beside disk (path.sibling suffix))
    (howns : below.Owns disk (path.sibling suffix) number)
    (hrename : disk.rename (path.sibling suffix) path = .ok later) :
    below.Stored later path (path.sibling suffix) (disk.bytesOf number) := by
  obtain ⟨source, hsource, hothers⟩ := howns
  obtain ⟨source', target, number', hsource', htarget, hrenamed⟩ := exists_moved hrename
  rw [hsource] at hsource'
  cases hsource'
  obtain ⟨hname, -⟩ := lookUp_file_occupant hsource
  have hne : target ≠ source := ne_of_locate_sibling hsuffix htarget hname
  have hother : disk.occupant? target ≠ some (.file number) := by
    rw [h.occupant target fun hleads => ?_]
    · exact hothers target hne
    · obtain ⟨_, hleads⟩ := h.sameDirectories.1.leads hleads
      rw [hname] at hleads
      cases hleads
      exact hne rfl
  have hmoved := hrenamed.resolve_left fun hsame => hother hsame.1
  have hsame := hmoved.sameDirectories
  have hname' := hsame.1.locate hname
  refine ⟨h.sameDirectories.1.trans hsame.1, read_of_rename hsource hrename, ?_, ?_⟩
  · have hgone : later.occupant? source = none := by
      rw [hmoved.occupant, if_neg hne.symm, if_pos rfl]
    simp only [lookUp, hname', hgone]
  · intro place hplace hbeside
    have hplace : place ≠ target := by
      rintro rfl
      exact hplace ⟨_, hsame.1.locate htarget⟩
    have hsourceNe : place ≠ source := by
      rintro rfl
      exact hbeside ⟨_, hname'⟩
    have hbelow : ¬ below.Leads (path.sibling suffix) place := fun hleads =>
      hbeside (hsame.1.leads (h.sameDirectories.1.leads hleads))
    rw [← h.fileAt? hbelow, Disk.fileAt?, Disk.fileAt?, hmoved.occupant, if_neg hplace,
      if_neg hsourceNe]
    simp only [hmoved.bytesOf]

end Disk

/-! ## Moves that may fail -/

namespace Writer

open Disk (Beside Owns Prepared Stored)

variable {w : Writer} {disk disk' left : Disk} {result : Except FileFault Unit}

/-- Whether the next move can be made to fail: all moves can but the removal of the temporary file. -/
def MayFail (w : Writer) : Prop :=
  match w.phase with
  | .cleanUp _ | .done _ => False
  | _ => True

/-- What a move leaves on the disk that has failed: nothing that it was to do, or some of the
directories above the path, the temporary file without a byte, or the first bytes in it. -/
inductive Leaves (w : Writer) (disk : Disk) : Disk → Prop where
  | nothing : Leaves w disk disk
  | directories {made : List Path} (hphase : w.phase = .makeParents)
      (hmade : made <+: w.path.parent.chain) : Leaves w disk (disk.ensureAll made).2
  | emptied {number : Nat} {opened : Disk} (hphase : w.phase = .create)
      (hcreate : disk.create w.temporary = .ok (number, opened)) : Leaves w disk opened
  | beginning {number : Nat} (hphase : w.phase = .write number) (length : Nat) :
      Leaves w disk (disk.write number (w.bytes.take length))

/-- The writer makes its moves, any of which may fail, and ends with the result and the second
disk. -/
inductive Runs : Writer → Disk → Except FileFault Unit → Disk → Prop where
  | done {w : Writer} {disk : Disk} {result : Except FileFault Unit} (h : w.result? = some result) :
      Runs w disk result disk
  | works {w : Writer} {disk disk' : Disk} {result : Except FileFault Unit} (h : w.result? = none)
      (hrest : Runs (w.step none disk).1 (w.step none disk).2 result disk') : Runs w disk result disk'
  | fails {w : Writer} {disk left disk' : Disk} {result : Except FileFault Unit} (fault : FileFault)
      (h : w.MayFail) (hleft : w.Leaves disk left)
      (hrest : Runs (w.step (some fault) left).1 (w.step (some fault) left).2 result disk') :
      Runs w disk result disk'

/-- A move leaves a tree a tree, also where it fails by itself or is made to fail. -/
theorem isTree_step (h : disk.IsTree) (w : Writer) (injected : Option FileFault) :
    (w.step injected disk).2.IsTree := by
  obtain ⟨path, temporary, bytes, phase⟩ := w
  cases phase with
  | makeParents =>
    cases injected with
    | some fault => exact h
    | none =>
      have hmade := (Disk.prepared_makeDirectories disk path.parent).isTree h
      rw [step_makeParents]
      split
      · next hok => rwa [hok] at hmade
      · next hfailed => rwa [hfailed] at hmade
  | create =>
    cases injected with
    | some fault => exact h
    | none =>
      rw [step_create]
      split
      · next hcreate => exact h.create hcreate
      · exact h
  | write number =>
    cases injected with
    | some fault => exact h
    | none => exact h.write number bytes
  | flush | sync => cases injected <;> exact h
  | rename =>
    cases injected with
    | some fault => exact h
    | none =>
      rw [step_rename]
      split
      · next hrename => exact h.rename hrename
      · exact h
  | cleanUp fault =>
    unfold step
    dsimp only
    split
    · next hremove => exact h.remove hremove
    · exact h
  | done result => exact h

theorem Leaves.isTree (hleft : w.Leaves disk left) (h : disk.IsTree) : left.IsTree := by
  cases hleft with
  | nothing => exact h
  | directories _ hmade => exact (Disk.prepared_ensureAll_chain hmade).isTree h
  | emptied _ hcreate => exact h.create hcreate
  | beginning _ length => exact h.write _ _

/-- Whatever fails on the way, a writer leaves a tree a tree, so the next one finds a tree again. -/
theorem Runs.isTree (h : w.Runs disk result disk') (hdisk : disk.IsTree) : disk'.IsTree := by
  induction h with
  | done => exact hdisk
  | works _ _ ih => exact ih (isTree_step hdisk _ _)
  | fails _ _ hleft _ ih => exact ih (isTree_step (hleft.isTree hdisk) _ _)

/-- What holds of the disk in each phase of a writer. -/
def Holds (start : Disk) (w : Writer) (disk : Disk) : Prop :=
  ∃ below, start.Prepared below w.path.parent.depth ∧
    match w.phase with
    | .makeParents => disk = start
    | .create => disk = below
    | .write number =>
      below.Beside disk w.temporary ∧ below.Owns disk w.temporary number ∧ disk.bytesOf number = []
    | .flush | .sync | .rename =>
      below.Beside disk w.temporary ∧
        ∃ number, below.Owns disk w.temporary number ∧ disk.bytesOf number = w.bytes
    | .cleanUp _ => below.Beside disk w.temporary
    | .done (.error _) =>
      disk = below ∨ below.Beside disk w.temporary ∧ ∀ held, disk.read w.temporary ≠ .ok held
    | .done (.ok ()) => below.Stored disk w.path w.temporary w.bytes

section
variable {start : Disk} {suffix : String}

/-- What holds of the disk is kept by a move that works, or fails by itself. -/
theorem Holds.step (h : Holds start w disk) (hstart : start.Numbered)
    (hunshared : start.Unshared w.temporary) (hsuffix : suffix ≠ "")
    (hw : w.temporary = w.path.sibling suffix) :
    Holds start (w.step none disk).1 (w.step none disk).2 := by
  obtain ⟨path, temporary, bytes, phase⟩ := w
  obtain ⟨below, hprepared, hphase⟩ := h
  cases phase with
  | makeParents =>
    obtain rfl : disk = start := hphase
    have hmade := Disk.prepared_makeDirectories disk path.parent
    rw [step_makeParents]
    split
    · next hok =>
      rw [hok] at hmade
      exact ⟨_, hmade, rfl⟩
    · next hfailed =>
      rw [hfailed] at hmade
      exact ⟨_, hmade, .inl rfl⟩
  | create =>
    obtain rfl : disk = below := hphase
    rw [step_create]
    split
    · next hcreate =>
      have hadds := hprepared.toAddsDirectories
      exact ⟨disk, hprepared,
        Disk.beside_create (hadds.numbered hstart) (hadds.unshared hunshared) hcreate⟩
    · exact ⟨disk, hprepared, .refl disk temporary⟩
  | write number =>
    obtain ⟨hbeside, howns, hempty⟩ := hphase
    obtain ⟨hbeside, howns⟩ := hbeside.write howns bytes
    exact ⟨below, hprepared, hbeside, number, howns, Disk.bytesOf_write bytes hempty⟩
  | flush => exact ⟨below, hprepared, hphase⟩
  | sync => exact ⟨below, hprepared, hphase⟩
  | rename =>
    obtain ⟨hbeside, number, howns, hbytes⟩ := hphase
    obtain rfl : temporary = path.sibling suffix := hw
    obtain rfl : disk.bytesOf number = bytes := hbytes
    rw [step_rename]
    split
    · next hrename => exact ⟨below, hprepared, hbeside.rename hsuffix howns hrename⟩
    · exact ⟨below, hprepared, hbeside⟩
  | cleanUp fault =>
    obtain ⟨hremoved, hkept⟩ := Beside.remove hphase
    unfold Writer.step
    dsimp only
    split
    · next hremove => exact ⟨below, hprepared, .inr (hremoved _ hremove)⟩
    · next hremove => exact ⟨below, hprepared, .inr ⟨hphase, hkept _ hremove⟩⟩
  | done result => exact ⟨below, hprepared, hphase⟩

/-- What holds of the disk is kept by a move that is made to fail. -/
theorem Holds.fail (h : Holds start w disk) (hstart : start.Numbered)
    (hunshared : start.Unshared w.temporary) (fault : FileFault) (hmay : w.MayFail)
    (hleft : w.Leaves disk left) :
    Holds start (w.step (some fault) left).1 (w.step (some fault) left).2 := by
  obtain ⟨path, temporary, bytes, phase⟩ := w
  obtain ⟨below, hprepared, hphase⟩ := h
  cases phase with
  | makeParents =>
    obtain rfl : disk = start := hphase
    cases hleft with
    | nothing => exact ⟨disk, .refl disk _, .inl rfl⟩
    | directories _ hmade => exact ⟨_, Disk.prepared_ensureAll_chain hmade, .inl rfl⟩
    | emptied h => cases h
    | beginning h => cases h
  | create =>
    obtain rfl : disk = below := hphase
    cases hleft with
    | nothing => exact ⟨disk, hprepared, .refl disk temporary⟩
    | directories h => cases h
    | emptied _ hcreate =>
      have hadds := hprepared.toAddsDirectories
      exact ⟨disk, hprepared,
        (Disk.beside_create (hadds.numbered hstart) (hadds.unshared hunshared) hcreate).1⟩
    | beginning h => cases h
  | write number =>
    obtain ⟨hbeside, howns, -⟩ := hphase
    cases hleft with
    | nothing => exact ⟨below, hprepared, hbeside⟩
    | directories h => cases h
    | emptied h => cases h
    | beginning h length =>
      cases h
      exact ⟨below, hprepared, (hbeside.write howns _).1⟩
  | flush | sync | rename =>
    obtain ⟨hbeside, -⟩ := hphase
    cases hleft with
    | nothing => exact ⟨below, hprepared, hbeside⟩
    | directories h => cases h
    | emptied h => cases h
    | beginning h => cases h
  | cleanUp | done => exact hmay.elim

/-- A move changes the phase of a writer and nothing else. -/
theorem step_fields (w : Writer) (injected : Option FileFault) (disk : Disk) :
    (w.step injected disk).1.path = w.path ∧ (w.step injected disk).1.temporary = w.temporary ∧
      (w.step injected disk).1.bytes = w.bytes := by
  unfold step
  repeat' split
  all_goals exact ⟨rfl, rfl, rfl⟩

/-- What holds of the disk at the start of a run does so at its end. -/
theorem Runs.holds (h : Runs w disk result disk') (hstart : start.Numbered)
    (hunshared : start.Unshared w.temporary) (hsuffix : suffix ≠ "")
    (hw : w.temporary = w.path.sibling suffix) (hholds : Holds start w disk) :
    Holds start { w with phase := .done result } disk' := by
  induction h with
  | @done w disk result hdone =>
    obtain ⟨path, temporary, bytes, phase⟩ := w
    cases phase with
    | done result' =>
      obtain rfl : result' = result := Option.some.inj hdone
      exact hholds
    | _ => cases hdone
  | @works w disk disk' result hrunning hrest ih =>
    obtain ⟨hpath, htemporary, hbytes⟩ := step_fields w none disk
    have h := ih (by rwa [htemporary]) (by rw [htemporary, hpath, hw])
      (hholds.step hstart hunshared hsuffix hw)
    rwa [hpath, htemporary, hbytes] at h
  | @fails w disk left disk' result fault hmay hleft hrest ih =>
    obtain ⟨hpath, htemporary, hbytes⟩ := step_fields w (some fault) left
    have h := ih (by rwa [htemporary]) (by rw [htemporary, hpath, hw])
      (hholds.fail hstart hunshared fault hmay hleft)
    rwa [hpath, htemporary, hbytes] at h

end

/-! ## Injected faults -/

/-- The number of moves that a writer has left at most. -/
def movesLeft (w : Writer) : Nat :=
  match w.phase with
  | .makeParents => 7
  | .create => 6
  | .write _ => 5
  | .flush => 4
  | .sync => 3
  | .rename => 2
  | .cleanUp _ => 1
  | .done _ => 0

/-- Every writer comes to an end. -/
theorem movesLeft_step (h : w.result? = none) (injected : Option FileFault) (disk : Disk) :
    (w.step injected disk).1.movesLeft < w.movesLeft := by
  obtain ⟨path, temporary, bytes, phase⟩ := w
  cases phase with
  | done result => cases h
  | cleanUp fault =>
    rw [step_cleanUp]
    exact Nat.zero_lt_one
  | _ =>
    cases injected <;> unfold step <;> dsimp only <;> repeat' split
    all_goals simp [movesLeft, inPhase]

/-- With faults injected a writer reports in time, and its moves are those of a run. -/
theorem exists_runs (inject : WritePhase → Option FileFault) {moves : Nat} (h : w.movesLeft ≤ moves)
    (disk : Disk) :
    ∃ result, (w.run inject moves disk).1.result? = some result ∧
      w.Runs disk result (w.run inject moves disk).2 := by
  induction moves generalizing w disk with
  | zero =>
    obtain ⟨path, temporary, bytes, phase⟩ := w
    cases phase with
    | done result => exact ⟨result, rfl, .done rfl⟩
    | _ => simp [movesLeft] at h
  | succ moves ih =>
    rw [run]
    cases hresult : w.result? with
    | some result => exact ⟨result, hresult, .done hresult⟩
    | none =>
      dsimp only
      have hleft := movesLeft_step hresult (inject w.phase) disk
      obtain ⟨result, hreported, hruns⟩ := ih (Nat.le_of_lt_succ (Nat.lt_of_lt_of_le hleft h)) _
      refine ⟨result, hreported, ?_⟩
      generalize inject w.phase = injected at hruns
      cases injected with
      | none => exact .works hresult hruns
      | some fault =>
        by_cases hmay : w.MayFail
        · exact .fails fault hmay .nothing hruns
        · -- the removal of the temporary file pays no heed to the fault
          refine .works hresult ?_
          obtain ⟨path, temporary, bytes, phase⟩ := w
          cases phase with
          | cleanUp => exact hruns
          | done => cases hresult
          | _ => exact absurd trivial hmay

end Writer

namespace Disk

variable {disk disk' : Disk} {path : Path} {suffix : String} {bytes : Bytes}

/-- The faults that are injected are among those that any move may meet. -/
theorem runs_of_writeAtomicWith {inject : WritePhase → Option FileFault}
    {result : Except FileFault Unit}
    (h : disk.writeAtomicWith inject suffix path bytes = (result, disk')) :
    (Writer.start suffix path bytes).Runs disk result disk' := by
  obtain ⟨result', hresult, hruns⟩ := Writer.exists_runs inject
    (show (Writer.start suffix path bytes).movesLeft ≤ Writer.maxMoves from Nat.le_succ 7) disk
  rw [writeAtomicWith] at h
  dsimp only at h
  rw [hresult] at h
  cases h
  exact hruns

/-- The disk after a write that reported an error. -/
structure LeftAlone (disk disk' : Disk) (path temporary : Path) : Prop extends disk.Kept disk' path where
  /-- There is no temporary file, unless it is from before and no file at all has changed. -/
  gone : (∀ held, disk'.read temporary ≠ .ok held) ∨ ∀ place, disk'.fileAt? place = disk.fileAt? place
  others : ∀ place, ¬ disk'.Leads temporary place → disk'.fileAt? place = disk.fileAt? place

variable {below : Disk}

theorem Prepared.leftAlone (hdisk : disk.IsTree) (hsuffix : suffix ≠ "")
    (hprepared : disk.Prepared below path.parent.depth)
    (hbeside : below.Beside disk' (path.sibling suffix))
    (hgone : disk' = below ∨ ∀ held, disk'.read (path.sibling suffix) ≠ .ok held) :
    disk.LeftAlone disk' path (path.sibling suffix) := by
  have hadds := hprepared.toAddsDirectories
  have hsame := hbeside.sameDirectories
  have hat : ∀ place, disk'.Leads path place → below.SameAt disk' place := by
    rintro place ⟨onlyDirectory, hname⟩
    -- the path is never that of the temporary file
    have happart : ¬ below.Leads (path.sibling suffix) place := fun hleads =>
      let ⟨_, hsibling⟩ := hsame.1.leads hleads
      ne_of_locate_sibling hsuffix hname hsibling rfl
    exact ⟨hbeside.occupant place happart, hbeside.fileAt? happart⟩
  refine ⟨(hprepared.kept hdisk).trans_sameAt hsame hat, ?_, fun place hplace => ?_⟩
  · refine hgone.symm.imp_right fun hunchanged place => ?_
    rw [hunchanged, hadds.fileAt?]
  · rw [hbeside.fileAt? fun hleads => hplace (hsame.1.leads hleads), hadds.fileAt?]

/-- Whatever move of a write fails, and whatever part of it has been done, an error leaves no temporary
file, all the other files as they were, and the path leading to what it led to. A path that led nowhere
because of `..` may lead to what was there before or to a directory that has been made. After a success
the path reads as the bytes, the temporary file is gone and all other files are as they were. -/
theorem failed_write_changes_nothing (hsuffix : suffix ≠ "") (hdisk : disk.IsTree)
    (hunshared : disk.Unshared (path.sibling suffix)) {result : Except FileFault Unit}
    (hruns : (Writer.start suffix path bytes).Runs disk result disk') :
    (∀ fault, result = .error fault → disk.LeftAlone disk' path (path.sibling suffix)) ∧
      (result = .ok () → disk.Stored disk' path (path.sibling suffix) bytes) := by
  have hstart : Writer.Holds disk (Writer.start suffix path bytes) disk := ⟨disk, .refl disk _, rfl⟩
  obtain ⟨below, hprepared, hend⟩ := hruns.holds hdisk.numbered hunshared hsuffix rfl hstart
  constructor
  · rintro fault rfl
    obtain rfl | ⟨hbeside, hgone⟩ := hend
    · exact hprepared.leftAlone hdisk hsuffix (.refl _ _) (.inl rfl)
    · exact hprepared.leftAlone hdisk hsuffix hbeside (.inr hgone)
  · rintro rfl
    have hstored : below.Stored disk' path (path.sibling suffix) bytes := hend
    have hadds := hprepared.toAddsDirectories
    exact ⟨hadds.keepsDirectories.trans hstored.keepsDirectories, hstored.written, hstored.gone,
      fun place hplace hbeside => (hstored.others place hplace hbeside).trans (hadds.fileAt? place)⟩

/-! ## One file in the root -/

def oneFile : Disk := ⟨[(["b"], .file 0)], [(0, [1])], 1⟩

theorem occupant?_oneFile_iff {place : Location} {entry : Entry} :
    oneFile.occupant? place = some entry ↔
      place = [] ∧ entry = .directory ∨ place = ["b"] ∧ entry = .file 0 := by
  rw [occupant?]
  split
  · next hroot => simp [hroot, eq_comm]
  · next hroot =>
    by_cases hplace : place = ["b"]
    · simp [oneFile, hplace, eq_comm]
    · have hne : (place == ["b"]) = false := beq_eq_false_iff_ne.mpr hplace
      simp [oneFile, List.lookup_cons, hroot, hplace, hne]

theorem isTree_oneFile : oneFile.IsTree := by
  refine ⟨fun place number h => ?_, fun place entry h => ?_⟩
  · obtain ⟨-, h⟩ | ⟨-, h⟩ := occupant?_oneFile_iff.mp h
    · cases h
    · cases h
      decide
  · obtain ⟨rfl, -⟩ | ⟨rfl, -⟩ := occupant?_oneFile_iff.mp h <;> rfl

theorem unshared_oneFile (path : Path) : oneFile.Unshared path := by
  intro place _ other number hplace hother
  obtain ⟨-, h⟩ | ⟨rfl, -⟩ := occupant?_oneFile_iff.mp hplace
  · cases h
  · obtain ⟨-, h⟩ | ⟨rfl, -⟩ := occupant?_oneFile_iff.mp hother
    · cases h
    · rfl

def faultAtSync : WritePhase → Option FileFault
  | .sync => some .other
  | _ => none

/-- A file whose replacement fails, and whose replacement goes well. -/
theorem failed_write_changes_nothing_oneFile :
    (∃ disk, oneFile.writeAtomicWith faultAtSync ".tmp" (.ofString "b") [2] = (.error .other, disk) ∧
      oneFile.LeftAlone disk (.ofString "b") ((Path.ofString "b").sibling ".tmp")) ∧
    ∃ disk, oneFile.writeAtomic ".tmp" (.ofString "b") [2] = (.ok (), disk) ∧
      oneFile.Stored disk (.ofString "b") ((Path.ofString "b").sibling ".tmp") [2] := by
  have hsuffix : ".tmp" ≠ "" := by decide
  obtain ⟨failed, hfailed⟩ : ∃ disk,
      oneFile.writeAtomicWith faultAtSync ".tmp" (.ofString "b") [2] = (.error .other, disk) :=
    ⟨_, rfl⟩
  obtain ⟨written, hwritten⟩ : ∃ disk,
      oneFile.writeAtomic ".tmp" (.ofString "b") [2] = (.ok (), disk) := ⟨_, rfl⟩
  have hruns := runs_of_writeAtomicWith hfailed
  have hruns' := runs_of_writeAtomicWith hwritten
  have hunshared := unshared_oneFile ((Path.ofString "b").sibling ".tmp")
  exact ⟨⟨failed, hfailed,
      (failed_write_changes_nothing hsuffix isTree_oneFile hunshared hruns).1 .other rfl⟩,
    written, hwritten,
    (failed_write_changes_nothing hsuffix isTree_oneFile hunshared hruns').2 rfl⟩

def oneDirectory : Disk := ⟨[(["d"], .directory)], [], 0⟩

/-- A disk on which the temporary file of `c` is there already and is the file at `b`. -/
def linkedFile : Disk := ⟨[(["b"], .file 0), (["c.tmp"], .file 0)], [(0, [1])], 1⟩

/-- A path that leads nowhere leads to a directory after a write to it, which fails on that directory:
the one that was missing on the way has been made, and may be the directory itself. A file with two
names changes with its other name. -/
theorem failed_write_finds_directory :
    (∃ disk, oneDirectory.lookUp (.ofString "a/../d") = .error .notFound ∧
      oneDirectory.writeAtomic ".tmp" (.ofString "a/../d") [2] = (.error .other, disk) ∧
      disk.lookUp (.ofString "a/../d") = .ok (["d"], .directory)) ∧
    (∃ disk, empty.occupant? ["a"] = none ∧
      empty.writeAtomic ".tmp" (.ofString "a/../a") [2] = (.error .other, disk) ∧
      disk.lookUp (.ofString "a/../a") = .ok (["a"], .directory)) ∧
    ∃ disk, linkedFile.read (.ofString "b") = .ok [1] ∧
      linkedFile.writeAtomic ".tmp" (.ofString "c") [2] = (.ok (), disk) ∧
      disk.read (.ofString "b") = .ok [2] :=
  ⟨⟨_, rfl, rfl, rfl⟩, ⟨_, rfl, rfl, rfl⟩, ⟨_, rfl, rfl, rfl⟩⟩

end Disk

end CircuitProof
