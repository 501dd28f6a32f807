import CircuitProof.Proofs.Files.Operations

/-!
# What an atomic write replaces

Where one write succeeds, every later write to the same path does: the directories have been made,
and path and temporary sibling are names of files or free. Such a write puts its bytes at the path,
leaves nothing at the sibling and touches no other name.
-/

namespace CircuitProof

namespace Path

variable {p : Path} {name : String}

/-- The last part of a path counts unless it says nothing. -/
theorem getLast?_lexicalParts (h : p.parts.getLast? = some name) (hdot : name ≠ ".") :
    p.lexicalParts.getLast? = some name := by
  rw [lexicalParts]
  cases hparts : p.parts with
  | nil =>
    rw [hparts] at h
    cases h
  | cons first rest =>
    rw [hparts] at h
    cases hrest : rest.getLast? with
    | none =>
      obtain rfl := List.getLast?_eq_none_iff.mp hrest
      obtain rfl : first = name := by simpa using h
      simp [hdot]
    | some last =>
      obtain rfl : last = name := by
        rw [List.getLast?_cons, hrest] at h
        simpa using h
      have hfiltered : (rest.filter (· ≠ ".")).getLast? = some last := by
        obtain ⟨before, rfl⟩ := List.getLast?_eq_some_iff.mp hrest
        simp [hdot]
      dsimp only
      split
      · exact hfiltered
      · rw [List.getLast?_cons, hfiltered, Option.getD_some]

theorem fileName?_eq_some (h : p.parts.getLast? = some name) (hdot : name ≠ ".")
    (hup : name ≠ "..") : p.fileName? = some name := by
  simp [fileName?, getLast?_lexicalParts h hdot, hdot, hup]

theorem getLast?_parts_sibling (h : p.parts.getLast? = some name) (hdot : name ≠ ".")
    (hup : name ≠ "..") (suffix : String) :
    (p.sibling suffix).parts.getLast? = some (name ++ suffix) := by
  simp [sibling, fileName?_eq_some h hdot hup]

end Path

namespace Disk

variable {disk disk' : Disk} {path temporary : Path}

/-- A path that leads to a name ends with it. -/
theorem getLast?_of_locate {location : Location} {onlyDirectory : Bool}
    (h : disk.locate path = .ok (.name location onlyDirectory)) :
    ∃ name, path.parts.getLast? = some name ∧ location.getLast? = some name ∧ name ≠ "." ∧
      name ≠ ".." := by
  rw [locate] at h
  split at h
  · cases h
  · split at h
    · split at h <;> cases h
    · next name hlast =>
      split at h
      · cases h
      · split at h
        · cases h
        · next hdot =>
          split at h
          · cases h
          · next hup =>
            split at h
            · cases h
            · cases h
              exact ⟨name, hlast, by simp, hdot, hup⟩

/-- Where a path leads to a file, that is one with its last name. -/
theorem Unshared.sole (h : disk.Unshared path) {location : Location} {onlyDirectory : Bool}
    (hname : disk.locate path = .ok (.name location onlyDirectory)) : disk.Sole location := by
  obtain ⟨name, hlast, hlocation, -⟩ := getLast?_of_locate hname
  exact h location (hlocation.trans hlast.symm)

/-- A path and its sibling never lead to the same name. -/
theorem ne_of_locate_sibling {suffix : String} (hsuffix : suffix ≠ "") {target source : Location}
    {only only' : Bool} (htarget : disk.locate path = .ok (.name target only))
    (hsource : disk'.locate (path.sibling suffix) = .ok (.name source only')) : target ≠ source := by
  obtain ⟨name, hname, htarget, hdot, hup⟩ := getLast?_of_locate htarget
  obtain ⟨name', hname', hsource, -, -⟩ := getLast?_of_locate hsource
  rw [Path.getLast?_parts_sibling hname hdot hup] at hname'
  obtain rfl := Option.some.inj hname'
  rintro rfl
  rw [htarget, Option.some.injEq] at hsource
  exact hsuffix (by simpa using (congrArg String.length hsource).symm)

/-- The directories above a path are there, and files can stand at the path and at its sibling. -/
structure Ready (disk : Disk) (path temporary : Path) (target source : Location) : Prop where
  parents : ∀ later, disk.KeepsDirectories later →
    later.makeDirectories path.parent = (.ok (), later)
  locate_target : disk.locate path = .ok (.name target false)
  locate_source : disk.locate temporary = .ok (.name source false)
  ne : target ≠ source
  target_free : disk.occupant? target ≠ some .directory
  source_free : disk.occupant? source ≠ some .directory

namespace Ready

variable {target source : Location}

theorem keeps (h : disk.Ready path temporary target source) (hsame : disk.SameDirectories disk') :
    disk'.Ready path temporary target source where
  parents later hlater := h.parents later (hsame.1.trans hlater)
  locate_target := hsame.1.locate h.locate_target
  locate_source := hsame.1.locate h.locate_source
  ne := h.ne
  target_free hdirectory := h.target_free (hsame.2 _ hdirectory)
  source_free hdirectory := h.source_free (hsame.2 _ hdirectory)

/-- The directories are there, so none is made. -/
theorem makeDirectories (h : disk.Ready path temporary target source) :
    disk.makeDirectories path.parent = (.ok (), disk) := h.parents disk fun _ hlocation => hlocation

end Ready

/-- What a successful write leaves: its bytes at the path, nothing at the sibling, and everything
else as it was. -/
structure Replaced (disk disk' : Disk) (target source : Location) (bytes : Bytes) : Prop where
  numbered : disk'.Numbered
  sole : ∀ place, disk.Sole place → disk'.Sole place
  sameDirectories : disk.SameDirectories disk'
  written : disk'.fileAt? target = some bytes
  gone : disk'.occupant? source = none
  others : ∀ place, place ≠ target → place ≠ source → disk.SameAt disk' place

/-- A write to a path that is ready opens the temporary file, writes to it and moves it, whatever other
names the file has. -/
theorem Ready.exists_moved {suffix : String} {target source : Location}
    (h : disk.Ready path (path.sibling suffix) target source)
    (hother : ∀ number opened, disk.Opened opened source number →
      disk.occupant? target ≠ some (.file number)) (bytes : Bytes) :
    ∃ number opened disk', disk.writeAtomic suffix path bytes = (.ok (), disk') ∧
      disk.Opened opened source number ∧
      (opened.write number bytes).Moved disk' source target number := by
  obtain ⟨number, opened, hcreate, hopened⟩ := exists_create h.locate_source h.source_free
  have hwritten := h.keeps hopened.sameDirectories |>.keeps (sameDirectories_write _ number bytes)
  have htarget : (opened.write number bytes).occupant? target ≠ some (.file number) := by
    rw [occupant?_write, hopened.occupant, if_neg h.ne]
    exact hother number opened hopened
  obtain ⟨disk', hrename, hmoved⟩ := exists_rename hwritten.locate_source
    hwritten.locate_target hopened.here hwritten.target_free htarget
  exact ⟨number, opened, disk', writeAtomic_eq_ok_iff.mpr (Writer.succeeds_iff.mpr
    ⟨disk, number, opened, h.makeDirectories, hcreate, hrename⟩), hopened, hmoved⟩

/-- What a write leaves whose temporary name stood for the file with the number: its bytes in that
file, under the path and under all the other names of the file. -/
structure Shows (disk disk' : Disk) (target source : Location) (number : Nat) (bytes : Bytes) : Prop where
  sameDirectories : disk.SameDirectories disk'
  here : disk'.occupant? target = some (.file number)
  written : disk'.bytesOf number = bytes
  names : ∀ place, place ≠ target → place ≠ source → disk'.occupant? place = disk.occupant? place
  others : ∀ other, other ≠ number → disk'.bytesOf other = disk.bytesOf other

/-- The write goes into the file that the temporary name stood for, so its other names show the
bytes too. -/
theorem Ready.exists_shows {suffix : String} {target source : Location} {number : Nat}
    (h : disk.Ready path (path.sibling suffix) target source)
    (hfile : disk.occupant? source = some (.file number))
    (htarget : disk.occupant? target ≠ some (.file number)) (bytes : Bytes) :
    ∃ disk', disk.writeAtomic suffix path bytes = (.ok (), disk') ∧
      disk.Shows disk' target source number bytes := by
  have hnumber : ∀ {other opened}, disk.Opened opened source other → other = number := by
    intro other opened hopened
    rcases hopened.number with ⟨hhere, -⟩ | ⟨hnone, -⟩
    · rw [hfile] at hhere
      cases hhere
      rfl
    · rw [hfile] at hnone
      cases hnone
  obtain ⟨other, opened, disk', hwrite, hopened, hmoved⟩ :=
    h.exists_moved (fun other opened hopened => hnumber hopened ▸ htarget) bytes
  obtain rfl := hnumber hopened
  refine ⟨disk', hwrite, ?_, ?_, ?_, fun place hplace hsource => ?_, fun found hfound => ?_⟩
  · exact (hopened.sameDirectories.trans (sameDirectories_write _ _ _)).trans hmoved.sameDirectories
  · rw [hmoved.occupant, if_pos rfl]
  · rw [hmoved.bytesOf, bytesOf_write bytes]
    rw [hopened.contents, if_pos rfl]
  · rw [hmoved.occupant, if_neg hplace, if_neg hsource, occupant?_write, hopened.occupant,
      if_neg hsource]
  · rw [hmoved.bytesOf, bytesOf_write_other _ _ hfound, hopened.contents, if_neg hfound]

/-- A write changes no other file than the one that its temporary name stood for. -/
theorem Shows.fileAt?_of_ne {target source place : Location} {number : Nat} {bytes : Bytes}
    (h : disk.Shows disk' target source number bytes) (htarget : place ≠ target)
    (hsource : place ≠ source) (hnumber : disk.occupant? place ≠ some (.file number)) :
    disk'.fileAt? place = disk.fileAt? place := by
  simp only [fileAt?, h.names place htarget hsource]
  cases hplace : disk.occupant? place with
  | none => rfl
  | some entry =>
    cases entry with
    | directory => rfl
    | file other =>
      have hne : other ≠ number := by
        rintro rfl
        exact hnumber hplace
      simp only [h.others other hne]

/-- A write to a path that is ready succeeds. -/
theorem Ready.exists_writeAtomic {suffix : String} {target source : Location}
    (h : disk.Ready path (path.sibling suffix) target source) (hdisk : disk.Numbered)
    (hsole : disk.Sole source) (bytes : Bytes) :
    ∃ disk', disk.writeAtomic suffix path bytes = (.ok (), disk') ∧
      disk.Replaced disk' target source bytes := by
  obtain ⟨number, opened, disk', hwrite, hopened, hmoved⟩ := h.exists_moved
    (fun _ _ hopened hfile => hopened.number_ne hdisk hsole h.ne hfile rfl) bytes
  have hsource : (opened.write number bytes).Sole source := hopened.sole hdisk hsole hsole
  refine ⟨disk', hwrite, hmoved.numbered (hopened.numbered hdisk),
    fun place hplace => hmoved.sole hsource (hopened.sole hdisk hsole hplace), ?_, ?_, ?_, ?_⟩
  · exact (hopened.sameDirectories.trans (sameDirectories_write _ _ _)).trans hmoved.sameDirectories
  · rw [fileAt?_of_occupant (by rw [hmoved.occupant, if_pos rfl]), hmoved.bytesOf, bytesOf_write bytes]
    rw [hopened.contents, if_pos rfl]
  · rw [hmoved.occupant, if_neg h.ne.symm, if_pos rfl]
  · intro place htarget hsource
    have hoccupant : disk'.occupant? place = disk.occupant? place := by
      rw [hmoved.occupant, if_neg htarget, if_neg hsource, occupant?_write, hopened.occupant,
        if_neg hsource]
    refine ⟨hoccupant, ?_⟩
    simp only [fileAt?, hoccupant]
    cases hplace : disk.occupant? place with
    | none => rfl
    | some entry =>
      cases entry with
      | directory => rfl
      | file other =>
        have hne := hopened.number_ne hdisk hsole hsource hplace
        simp only [hmoved.bytesOf, bytesOf_write_other _ _ hne, hopened.contents, if_neg hne]

/-- Where one write succeeds, the path is ready as soon as the directories above it have been made.
-/
theorem ready_of_writeAtomic {suffix : String} (hsuffix : suffix ≠ "") {bytes : Bytes}
    (h : disk.writeAtomic suffix path bytes = (.ok (), disk')) :
    ∃ below target source, disk.makeDirectories path.parent = (.ok (), below) ∧
      disk.AddsDirectories below ∧ below.Ready path (path.sibling suffix) target source := by
  obtain ⟨below, number, opened, hparents, hcreate, hrename⟩ :=
    Writer.succeeds_iff.mp (writeAtomic_eq_ok_iff.mp h)
  obtain ⟨hadds, hmade⟩ := makeDirectories_eq_ok hparents
  obtain ⟨source, hsource, hfree⟩ := exists_name_of_create hcreate
  obtain ⟨number', opened', hcreate', hopened⟩ := exists_create hsource hfree
  obtain ⟨rfl, rfl⟩ := Prod.mk.inj (Except.ok.inj (hcreate.symm.trans hcreate'))
  obtain ⟨target, htarget, hfree'⟩ := exists_name_of_rename hrename
  have hsame : (opened.write number bytes).SameDirectories below :=
    (hopened.sameDirectories.trans (sameDirectories_write opened number bytes)).symm
  have htarget' := hsame.1.locate htarget
  exact ⟨below, target, source, hparents, hadds, hmade, htarget', hsource,
    ne_of_locate_sibling hsuffix htarget' hsource, fun hdirectory => hfree' (hsame.2 _ hdirectory),
    hfree⟩

/-- Making the directories beforehand does not change what a write does. -/
theorem writeAtomic_of_makeDirectories {below : Disk} {suffix : String} {bytes : Bytes}
    (h : disk.makeDirectories path.parent = (.ok (), below))
    (hbelow : below.makeDirectories path.parent = (.ok (), below)) :
    disk.writeAtomic suffix path bytes = (.ok (), disk') ↔
      below.writeAtomic suffix path bytes = (.ok (), disk') := by
  rw [writeAtomic_eq_ok_iff, writeAtomic_eq_ok_iff, Writer.succeeds_iff, Writer.succeeds_iff, h, hbelow]

end Disk

end CircuitProof
