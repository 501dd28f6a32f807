import CircuitProof.Proofs.Files.AtomicWrite

/-!
# What the file operations change

A disk is read through three functions: what stands at a location, what a numbered file holds, and
which number is the next one. Each operation changes them at the places that it is about. A file with
one name keeps having one, so that writing to it shows under its own name only.
-/

namespace CircuitProof

namespace Disk

variable {disk disk' later : Disk} {path : Path}

def fileAt? (disk : Disk) (location : Location) : Option Bytes :=
  match disk.occupant? location with
  | some (.file number) => some (disk.bytesOf number)
  | _ => none

theorem fileAt?_of_occupant {location : Location} {number : Nat}
    (h : disk.occupant? location = some (.file number)) :
    disk.fileAt? location = some (disk.bytesOf number) := by
  rw [fileAt?, h]

/-- The path reads as the file at its name. -/
theorem read_eq_ok_iff {location : Location} (hname : disk.locate path = .ok (.name location false))
    {bytes : Bytes} : disk.read path = .ok bytes ↔ disk.fileAt? location = some bytes := by
  simp only [read, lookUp, hname, fileAt?]
  cases hoccupant : disk.occupant? location with
  | none => simp
  | some entry =>
    cases entry with
    | directory => simp
    | file number => simp

/-- Every file has a number that has been given out. -/
def Numbered (disk : Disk) : Prop :=
  ∀ location number, disk.occupant? location = some (.file number) → number < disk.nextNumber

/-- The file at the location, if there is one, has no second name. -/
def Sole (disk : Disk) (location : Location) : Prop :=
  ∀ place number, disk.occupant? location = some (.file number) →
    disk.occupant? place = some (.file number) → place = location

/-- No file that has the last name of the path has a second name. -/
def Unshared (disk : Disk) (path : Path) : Prop :=
  ∀ location, location.getLast? = path.parts.getLast? → disk.Sole location

/-- The same stands at the location, with the same contents. -/
def SameAt (disk disk' : Disk) (place : Location) : Prop :=
  disk'.occupant? place = disk.occupant? place ∧ disk'.fileAt? place = disk.fileAt? place

theorem SameAt.trans {place : Location} (h : disk.SameAt disk' place) (h' : disk'.SameAt later place) :
    disk.SameAt later place := ⟨h'.1.trans h.1, h'.2.trans h.2⟩

theorem mem_entries_of_occupant {location : Location} {entry : Entry}
    (h : disk.occupant? location = some entry) (hroot : location ≠ []) :
    (location, entry) ∈ disk.entries := by
  rw [occupant?, if_neg hroot, List.lookup_eq_some_iff] at h
  obtain ⟨front, back, hentries, -⟩ := h
  rw [hentries]
  exact List.mem_append_right front List.mem_cons_self

/-- Files are what the disk lists, since the root is a directory. -/
theorem mem_entries_of_file {location : Location} {number : Nat}
    (h : disk.occupant? location = some (.file number)) : (location, .file number) ∈ disk.entries := by
  apply mem_entries_of_occupant h
  rintro rfl
  cases h

/-- A name that nothing on the disk has is not shared. -/
theorem unshared_of_entries
    (h : ∀ entry ∈ disk.entries, entry.1.getLast? ≠ path.parts.getLast?) : disk.Unshared path :=
  fun _ hlast _ _ hfile _ => absurd hlast (h _ (mem_entries_of_file hfile))

theorem numbered_of_entries
    (h : ∀ entry ∈ disk.entries, ∀ number, entry.2 = .file number → number < disk.nextNumber) :
    disk.Numbered := fun _ number hfile => h _ (mem_entries_of_file hfile) number rfl

theorem numbered_empty : empty.Numbered := fun _ _ h => absurd (mem_entries_of_file h) nofun

theorem unshared_empty (path : Path) : empty.Unshared path := unshared_of_entries nofun

/-! ## Making directories -/

theorem KeepsDirectories.trans (h : disk.KeepsDirectories disk') (h' : disk'.KeepsDirectories later) :
    disk.KeepsDirectories later := fun location hlocation => h' location (h location hlocation)

theorem isDirectory_iff : disk.isDirectory path = true ↔
    ∃ location, disk.lookUp path = .ok (location, .directory) := by
  rw [isDirectory]
  split
  · next location hlookUp => exact iff_of_true rfl ⟨location, hlookUp⟩
  · next hother => exact iff_of_false Bool.false_ne_true fun ⟨location, h⟩ => hother location h

theorem KeepsDirectories.isDirectory (h : disk.KeepsDirectories disk')
    (hdirectory : disk.isDirectory path = true) : disk'.isDirectory path = true := by
  rw [isDirectory_iff] at hdirectory ⊢
  obtain ⟨location, hlookUp⟩ := hdirectory
  rw [lookUp] at hlookUp
  split at hlookUp
  · cases hlookUp
  · next place hplace =>
    exact ⟨place, by rw [lookUp, h.locate hplace]⟩
  · next place onlyDirectory hname =>
    split at hlookUp
    · cases hlookUp
    · split at hlookUp <;> cases hlookUp
    · next hoccupant =>
      exact ⟨place, by simp only [lookUp, h.locate hname, h place hoccupant]⟩

/-- The second disk has more directories, where nothing stood before, and is otherwise the same. -/
structure AddsDirectories (disk disk' : Disk) : Prop where
  occupant : ∀ location, disk'.occupant? location = disk.occupant? location ∨
    disk.occupant? location = none ∧ disk'.occupant? location = some .directory
  contents : disk'.contents = disk.contents
  nextNumber : disk'.nextNumber = disk.nextNumber

namespace AddsDirectories

theorem refl (disk : Disk) : disk.AddsDirectories disk := ⟨fun _ => .inl rfl, rfl, rfl⟩

theorem trans (h : disk.AddsDirectories disk') (h' : disk'.AddsDirectories later) :
    disk.AddsDirectories later := by
  refine ⟨fun location => ?_, h'.contents.trans h.contents, h'.nextNumber.trans h.nextNumber⟩
  rcases h'.occupant location with hsame | ⟨hnone, hdirectory⟩
  · rw [hsame]
    exact h.occupant location
  · rcases h.occupant location with hsame | ⟨-, hdirectory'⟩
    · exact .inr ⟨hsame ▸ hnone, hdirectory⟩
    · rw [hnone] at hdirectory'
      cases hdirectory'

theorem keepsDirectories (h : disk.AddsDirectories disk') : disk.KeepsDirectories disk' := by
  intro location hlocation
  rcases h.occupant location with hsame | ⟨hnone, -⟩
  · rw [hsame, hlocation]
  · rw [hlocation] at hnone
    cases hnone

/-- Files are those that were there. -/
theorem occupant_file_iff (h : disk.AddsDirectories disk') {location : Location} {number : Nat} :
    disk'.occupant? location = some (.file number) ↔
      disk.occupant? location = some (.file number) := by
  rcases h.occupant location with hsame | ⟨hnone, hdirectory⟩
  · rw [hsame]
  · simp [hnone, hdirectory]

theorem bytesOf (h : disk.AddsDirectories disk') (number : Nat) :
    disk'.bytesOf number = disk.bytesOf number := by
  rw [Disk.bytesOf, h.contents, Disk.bytesOf]

theorem fileAt? (h : disk.AddsDirectories disk') (location : Location) :
    disk'.fileAt? location = disk.fileAt? location := by
  rcases h.occupant location with hsame | ⟨hnone, hdirectory⟩
  · simp only [Disk.fileAt?, hsame, h.bytesOf]
  · simp only [Disk.fileAt?, hnone, hdirectory]

theorem numbered (h : disk.AddsDirectories disk') (hdisk : disk.Numbered) : disk'.Numbered := by
  intro location number hfile
  rw [h.nextNumber]
  exact hdisk location number (h.occupant_file_iff.mp hfile)

theorem unshared (h : disk.AddsDirectories disk') (hdisk : disk.Unshared path) :
    disk'.Unshared path := fun location hlast place number hfile hplace =>
  hdisk location hlast place number (h.occupant_file_iff.mp hfile) (h.occupant_file_iff.mp hplace)

end AddsDirectories

theorem makeDirectory_eq_ok (h : disk.makeDirectory path = .ok disk') :
    disk.AddsDirectories disk' ∧ disk'.isDirectory path = true := by
  rw [makeDirectory] at h
  split at h
  · cases h
  · cases h
  · next location onlyDirectory hname =>
    split at h
    · cases h
    · next hfree =>
      cases h
      have hadds : disk.AddsDirectories (disk.setEntry location .directory) := by
        refine ⟨fun place => ?_, rfl, rfl⟩
        by_cases hplace : place = location
        · rw [hplace, occupant?_setEntry_same _ _ _ (name_ne_root hname)]
          exact .inr ⟨hfree, rfl⟩
        · exact .inl (occupant?_setEntry_other _ _ _ _ hplace)
      have hmade := occupant?_setEntry_same disk location .directory (name_ne_root hname)
      refine ⟨hadds, isDirectory_iff.mpr ⟨location, ?_⟩⟩
      simp only [lookUp, hadds.keepsDirectories.locate hname, hmade]

/-- A directory that is there is not made. -/
theorem ensureDirectory_of_isDirectory (h : disk.isDirectory path = true) :
    disk.ensureDirectory path = (.ok (), disk) := by
  rw [ensureDirectory]
  split
  · next disk' hmade =>
    obtain ⟨location, hlookUp⟩ := isDirectory_iff.mp h
    rw [makeDirectory] at hmade
    rw [lookUp] at hlookUp
    split at hmade
    · cases hmade
    · cases hmade
    · next hname =>
      split at hmade
      · cases hmade
      · next hfree =>
        simp only [hname, hfree] at hlookUp
        cases hlookUp
  · rw [if_pos h]

theorem ensureDirectory_eq_ok (h : disk.ensureDirectory path = (.ok (), disk')) :
    disk.AddsDirectories disk' ∧ disk'.isDirectory path = true := by
  rw [ensureDirectory] at h
  split at h
  · next hmade =>
    cases h
    exact makeDirectory_eq_ok hmade
  · split at h
    · next hdirectory =>
      cases h
      exact ⟨.refl _, hdirectory⟩
    · cases h

/-- Directories that are there are left alone. -/
theorem ensureAll_of_isDirectory {paths : List Path} (h : ∀ p ∈ paths, disk.isDirectory p = true) :
    disk.ensureAll paths = (.ok (), disk) := by
  induction paths with
  | nil => rfl
  | cons path rest ih =>
    simp only [ensureAll, ensureDirectory_of_isDirectory (h path List.mem_cons_self)]
    exact ih fun p hp => h p (List.mem_cons_of_mem _ hp)

/-- Later directories do not take earlier ones away. -/
theorem ensureAll_eq_ok {paths : List Path} (h : disk.ensureAll paths = (.ok (), disk')) :
    disk.AddsDirectories disk' ∧ ∀ p ∈ paths, disk'.isDirectory p = true := by
  induction paths generalizing disk with
  | nil =>
    cases h
    exact ⟨.refl _, nofun⟩
  | cons path rest ih =>
    rw [ensureAll] at h
    split at h
    · next below hfirst =>
      obtain ⟨hadds, hdirectory⟩ := ensureDirectory_eq_ok hfirst
      obtain ⟨hrest, hall⟩ := ih h
      refine ⟨hadds.trans hrest, fun p hp => ?_⟩
      rcases List.mem_cons.mp hp with rfl | hp
      · exact hrest.keepsDirectories.isDirectory hdirectory
      · exact hall p hp
    · cases h

/-- Once the directories have been made, making them again changes nothing. -/
theorem makeDirectories_eq_ok (h : disk.makeDirectories path = (.ok (), disk')) :
    disk.AddsDirectories disk' ∧
      ∀ later, disk'.KeepsDirectories later → later.makeDirectories path = (.ok (), later) := by
  simp only [makeDirectories] at h ⊢
  split at h
  · cases h
  · next husable =>
    simp only [husable]
    split at h
    · next hempty =>
      cases h
      exact ⟨.refl disk, fun later _ => by simp [hempty]⟩
    · next hparts =>
      obtain ⟨hadds, hall⟩ := ensureAll_eq_ok h
      refine ⟨hadds, fun later hkeeps => ?_⟩
      simp only [hparts]
      exact ensureAll_of_isDirectory fun p hp => hkeeps.isDirectory (hall p hp)

/-! ## Creating, writing, renaming and removing files -/

def SameDirectories (disk disk' : Disk) : Prop :=
  disk.KeepsDirectories disk' ∧ disk'.KeepsDirectories disk

theorem SameDirectories.refl (disk : Disk) : disk.SameDirectories disk := ⟨fun _ h => h, fun _ h => h⟩

theorem SameDirectories.symm (h : disk.SameDirectories disk') : disk'.SameDirectories disk :=
  ⟨h.2, h.1⟩

theorem SameDirectories.trans (h : disk.SameDirectories disk') (h' : disk'.SameDirectories later) :
    disk.SameDirectories later := ⟨h.1.trans h'.1, h'.2.trans h.2⟩

/-- The file at a location has been opened under a number and emptied. -/
structure Opened (disk disk' : Disk) (location : Location) (number : Nat) : Prop where
  occupant : ∀ place, disk'.occupant? place =
    if place = location then some (.file number) else disk.occupant? place
  contents : ∀ other, disk'.bytesOf other = if other = number then [] else disk.bytesOf other
  number : disk.occupant? location = some (.file number) ∧ disk'.nextNumber = disk.nextNumber ∨
    disk.occupant? location = none ∧ number = disk.nextNumber ∧ disk'.nextNumber = number + 1

/-- Opening can fail only at the path or at a directory. -/
theorem exists_create {location : Location} (hname : disk.locate path = .ok (.name location false))
    (hfree : disk.occupant? location ≠ some .directory) :
    ∃ number disk', disk.create path = .ok (number, disk') ∧ disk.Opened disk' location number := by
  have hroot : location ≠ [] := name_ne_root hname
  simp only [create, hname, Bool.false_eq_true, if_false]
  cases hoccupant : disk.occupant? location with
  | none =>
    refine ⟨_, _, rfl, fun place => ?_, fun other => ?_, .inr ⟨hoccupant, rfl, rfl⟩⟩
    · split
      · next hplace =>
        rw [hplace]
        exact occupant?_setEntry_same disk location _ hroot
      · next hplace => exact occupant?_setEntry_other disk _ _ _ hplace
    · split
      · next hother =>
        rw [hother]
        exact bytesOf_setBytes_same _ _ _
      · next hother => exact bytesOf_setBytes_other (disk.setEntry _ _) _ _ _ hother
  | some entry =>
    cases entry with
    | directory => exact absurd hoccupant hfree
    | file number =>
      refine ⟨_, _, rfl, fun place => ?_, fun other => ?_, .inl ⟨hoccupant, rfl⟩⟩
      · split
        · next hplace => rw [occupant?_setBytes, hplace, hoccupant]
        · rfl
      · split
        · next hother => rw [hother, bytesOf_setBytes_same]
        · next hother => exact bytesOf_setBytes_other disk _ _ _ hother

theorem exists_name_of_create {number : Nat} (h : disk.create path = .ok (number, disk')) :
    ∃ location, disk.locate path = .ok (.name location false) ∧
      disk.occupant? location ≠ some .directory := by
  rw [create] at h
  split at h
  · cases h
  · cases h
  · next location onlyDirectory hname =>
    split at h
    · cases h
    · next honly =>
      rw [Bool.not_eq_true] at honly
      subst honly
      refine ⟨location, hname, fun hdirectory => ?_⟩
      rw [hdirectory] at h
      cases h

namespace Opened

variable {location : Location} {number : Nat}

theorem not_directory (h : disk.Opened disk' location number) :
    disk.occupant? location ≠ some .directory := by
  rcases h.number with ⟨hfile, -⟩ | ⟨hnone, -⟩
  · simp [hfile]
  · simp [hnone]

theorem here (h : disk.Opened disk' location number) :
    disk'.occupant? location = some (.file number) := by
  rw [h.occupant, if_pos rfl]

theorem sameDirectories (h : disk.Opened disk' location number) : disk.SameDirectories disk' := by
  have hfree := h.not_directory
  constructor <;> intro place hplace
  · have hne : place ≠ location := by
      rintro rfl
      exact hfree hplace
    rw [h.occupant, if_neg hne, hplace]
  · rw [h.occupant] at hplace
    split at hplace
    · cases hplace
    · exact hplace

/-- If the file that was there had no second name, the number of the opened one is that of no other
name. -/
theorem number_ne (h : disk.Opened disk' location number) (hdisk : disk.Numbered)
    (hsole : disk.Sole location) {place : Location} {other : Nat} (hplace : place ≠ location)
    (hfile : disk.occupant? place = some (.file other)) : other ≠ number := by
  rintro rfl
  rcases h.number with ⟨hhere, -⟩ | ⟨-, hnext, -⟩
  · exact hplace (hsole place other hhere hfile)
  · exact absurd (hdisk _ _ hfile) (by omega)

theorem nextNumber_le (h : disk.Opened disk' location number) : disk.nextNumber ≤ disk'.nextNumber := by
  rcases h.number with ⟨-, hnext⟩ | ⟨-, hnumber, hnext⟩ <;> omega

theorem number_lt (h : disk.Opened disk' location number) (hdisk : disk.Numbered) :
    number < disk'.nextNumber := by
  rcases h.number with ⟨hfile, hnext⟩ | ⟨-, -, hnext⟩
  · rw [hnext]
    exact hdisk _ _ hfile
  · omega

theorem numbered (h : disk.Opened disk' location number) (hdisk : disk.Numbered) :
    disk'.Numbered := by
  intro place other hfile
  rw [h.occupant] at hfile
  split at hfile
  · cases hfile
    exact h.number_lt hdisk
  · exact Nat.lt_of_lt_of_le (hdisk _ _ hfile) h.nextNumber_le

/-- Opening a file that has one name gives no file a second one. -/
theorem sole (h : disk.Opened disk' location number) (hdisk : disk.Numbered)
    (hsole : disk.Sole location) {place : Location} (hplace : disk.Sole place) :
    disk'.Sole place := by
  intro other found hfile hother
  rw [h.occupant] at hfile hother
  by_cases hhere : place = location
  · subst hhere
    rw [if_pos rfl] at hfile
    cases hfile
    split at hother
    · next hsame => exact hsame
    · next hne => exact absurd rfl (h.number_ne hdisk hsole hne hother)
  · rw [if_neg hhere] at hfile
    split at hother
    · cases hother
      exact absurd rfl (h.number_ne hdisk hsole hhere hfile)
    · exact hplace other found hfile hother

end Opened

theorem occupant?_write (disk : Disk) (number : Nat) (bytes : Bytes) (location : Location) :
    (disk.write number bytes).occupant? location = disk.occupant? location := rfl

theorem sameDirectories_write (disk : Disk) (number : Nat) (bytes : Bytes) :
    disk.SameDirectories (disk.write number bytes) := ⟨fun _ h => h, fun _ h => h⟩

theorem bytesOf_write_self (disk : Disk) (number : Nat) (bytes : Bytes) :
    (disk.write number bytes).bytesOf number =
      bytes ++ (disk.bytesOf number).drop bytes.length := bytesOf_setBytes_same _ _ _

theorem bytesOf_write_other (disk : Disk) {number other : Nat} (bytes : Bytes) (h : other ≠ number) :
    (disk.write number bytes).bytesOf other = disk.bytesOf other :=
  bytesOf_setBytes_other disk _ _ _ h

/-- The file of one name has been given another name, in place of what stood there, which was not the
same file. -/
structure Moved (disk disk' : Disk) (source target : Location) (number : Nat) : Prop where
  occupant : ∀ place, disk'.occupant? place =
    if place = target then some (.file number)
    else if place = source then none else disk.occupant? place
  contents : disk'.contents = disk.contents
  nextNumber : disk'.nextNumber = disk.nextNumber
  source : disk.occupant? source = some (.file number)
  target : disk.occupant? target ≠ some .directory

/-- A file that has one name stands nowhere else. -/
theorem Sole.ne_file {source target : Location} {number : Nat} (h : disk.Sole source)
    (hfile : disk.occupant? source = some (.file number)) (hne : target ≠ source) :
    disk.occupant? target ≠ some (.file number) := fun htarget => hne (h target number hfile htarget)

theorem exists_rename {temporary : Path} {source target : Location} {number : Nat}
    (hsource : disk.locate temporary = .ok (.name source false))
    (htarget : disk.locate path = .ok (.name target false))
    (hfile : disk.occupant? source = some (.file number))
    (hfree : disk.occupant? target ≠ some .directory)
    (hother : disk.occupant? target ≠ some (.file number)) :
    ∃ disk', disk.rename temporary path = .ok disk' ∧ disk.Moved disk' source target number := by
  simp only [rename, lookUp_of_name hsource hfile, htarget, Bool.false_eq_true, hfree, hother, or_self,
    if_false]
  refine ⟨_, rfl, fun place => ?_, rfl, rfl, hfile, hfree⟩
  split
  · next hplace =>
    rw [hplace]
    exact occupant?_setEntry_same _ _ _ (name_ne_root htarget)
  · next hplace =>
    rw [occupant?_setEntry_other _ _ _ _ hplace]
    split
    · next hplace =>
      rw [hplace]
      exact occupant?_clearEntry_same _ _ (name_ne_root hsource)
    · next hplace => exact occupant?_clearEntry_other _ _ _ hplace

theorem exists_name_of_rename {temporary : Path} (h : disk.rename temporary path = .ok disk') :
    ∃ location, disk.locate path = .ok (.name location false) ∧
      disk.occupant? location ≠ some .directory := by
  rw [rename] at h
  split at h
  · cases h
  · cases h
  · split at h
    · cases h
    · cases h
    · next location onlyDirectory hname =>
      split at h
      · cases h
      · next hallowed =>
        obtain ⟨honly, hfree⟩ := not_or.mp hallowed
        rw [Bool.not_eq_true] at honly
        exact ⟨location, honly ▸ hname, hfree⟩

namespace Moved

variable {source target : Location} {number : Nat}

theorem sameDirectories (h : disk.Moved disk' source target number) : disk.SameDirectories disk' := by
  have hfile := h.source
  have hfree := h.target
  constructor <;> intro place hplace
  · have htarget : place ≠ target := by
      rintro rfl
      exact hfree hplace
    have hsource : place ≠ source := by
      rintro rfl
      rw [hfile] at hplace
      cases hplace
    rw [h.occupant, if_neg htarget, if_neg hsource, hplace]
  · rw [h.occupant] at hplace
    split at hplace
    · cases hplace
    · split at hplace
      · cases hplace
      · exact hplace

theorem bytesOf (h : disk.Moved disk' source target number) (other : Nat) :
    disk'.bytesOf other = disk.bytesOf other := by
  rw [Disk.bytesOf, h.contents, Disk.bytesOf]

/-- A file whose number is not that of the moved one stands where it did. -/
theorem occupant_of_ne (h : disk.Moved disk' source target number) {place : Location} {other : Nat}
    (hplace : disk'.occupant? place = some (.file other)) (hne : other ≠ number) :
    disk.occupant? place = some (.file other) := by
  rw [h.occupant] at hplace
  split at hplace
  · cases hplace
    exact absurd rfl hne
  · split at hplace
    · cases hplace
    · exact hplace

theorem numbered (h : disk.Moved disk' source target number) (hdisk : disk.Numbered) :
    disk'.Numbered := by
  intro place other hfile
  rw [h.nextNumber]
  by_cases hnumber : other = number
  · rw [hnumber]
    exact hdisk _ _ h.source
  · exact hdisk _ _ (h.occupant_of_ne hfile hnumber)

/-- Moving the only name of a file gives no file a second one. -/
theorem sole (h : disk.Moved disk' source target number) (hsole : disk.Sole source) {place : Location}
    (hplace : disk.Sole place) : disk'.Sole place := by
  -- a name that is left over and has the number of the moved file would be the source
  have hmoved : ∀ other, disk'.occupant? other = some (.file number) → other = target := by
    intro other hother
    rw [h.occupant] at hother
    split at hother
    · next htarget => exact htarget
    · split at hother
      · cases hother
      · next hsource => exact absurd (hsole other number h.source hother) hsource
  intro other found hfile hother
  by_cases hnumber : found = number
  · subst hnumber
    rw [hmoved place hfile, hmoved other hother]
  · exact hplace other found (h.occupant_of_ne hfile hnumber) (h.occupant_of_ne hother hnumber)

end Moved

end Disk

end CircuitProof
