import Mathlib.Data.List.Induction
import CircuitProof.Proofs.Files.Replacement

/-!
# Directories that are made for a path

Making the directories above a path adds directories and nothing else, also where it fails halfway,
and none of them as deep as the path itself. So a path without `..` leads to nothing new afterwards: its
way up to the last part may be longer, but what stands at its end was there before. A path with `..`
that led nowhere can come to lead somewhere, to what was there or to one of the directories themselves.
-/

namespace CircuitProof

/-! ## The depth of a path -/

namespace Path

variable {p : Path}

/-- The number of names that a path has, with `..` counted as one. -/
def depth (p : Path) : Nat := (p.parts.filter (· ≠ ".")).length

theorem filter_lexicalParts (p : Path) :
    p.lexicalParts.filter (· ≠ ".") = p.parts.filter (· ≠ ".") := by
  rw [lexicalParts]
  cases p.parts with
  | nil => rfl
  | cons first rest =>
    dsimp only
    split
    · next hdot => simp [hdot.1]
    · rw [List.filter_cons, List.filter_cons, List.filter_filter]
      simp only [Bool.and_self]

theorem ne_dot_of_mem_tail {part : String} (h : part ∈ p.lexicalParts.tail) : part ≠ "." := by
  rw [lexicalParts] at h
  cases hparts : p.parts with
  | nil =>
    rw [hparts] at h
    cases h
  | cons first rest =>
    rw [hparts] at h
    have hrest : part ∈ rest.filter (· ≠ ".") := by
      dsimp only at h
      split at h
      · exact List.mem_of_mem_tail h
      · exact h
    simpa using (List.mem_filter.mp hrest).2

/-- The parent of a path that says anything is less deep. -/
theorem depth_parent_lt (h : 0 < p.depth) : p.parent.depth < p.depth := by
  have hdepth : p.depth = (p.lexicalParts.filter (· ≠ ".")).length := by
    rw [filter_lexicalParts, depth]
  rcases List.eq_nil_or_concat p.lexicalParts with hnil | ⟨front, name, heq⟩
  · rw [hdepth, hnil] at h
    cases h
  · rw [List.concat_eq_append] at heq
    have hname : name ≠ "." := by
      cases front with
      | nil =>
        rintro rfl
        rw [hdepth, heq] at h
        cases h
      | cons first front =>
        refine ne_dot_of_mem_tail (p := p) ?_
        rw [heq]
        simp
    have hparent : p.parent.depth = (front.filter (· ≠ ".")).length := by
      rw [depth, parts_parent, parentParts, heq, List.dropLast_concat]
    rw [hparent, hdepth, heq, List.filter_append, List.length_append]
    simp [hname]

/-- The directories that are made for a directory, in order: those above it and the directory. -/
def chain (p : Path) : List Path :=
  ((List.range p.parentParts.length).map fun n => p.parentParts.take (n + 1)).map p.withParts ++ [p]

theorem depth_le_of_mem_chain {q : Path} (h : q ∈ p.chain) : q.depth ≤ p.depth := by
  rw [chain, List.mem_append, List.mem_singleton] at h
  rcases h with h | rfl
  · obtain ⟨parts, hparts, rfl⟩ := List.mem_map.mp h
    obtain ⟨n, -, rfl⟩ := List.mem_map.mp hparts
    rw [depth, parts_withParts, depth, ← filter_lexicalParts p, parentParts]
    exact (((List.take_sublist _ _).trans (List.dropLast_sublist _)).filter _).length_le
  · exact Nat.le_refl _

end Path

namespace Disk

variable {disk disk' below later : Disk} {path : Path}

/-! ## Where a path leads -/

/-- A path goes down by at most one directory for each of its names. -/
theorem length_of_enter {parts : List String} {location reached : Location}
    (h : disk.enter location parts = .ok reached) :
    reached.length ≤ location.length + (parts.filter (· ≠ ".")).length := by
  induction parts generalizing location with
  | nil =>
    cases h
    exact Nat.le_refl _
  | cons part parts ih =>
    rw [enter] at h
    split at h
    · next hdot =>
      have hreached := ih h
      simpa [hdot] using hreached
    · next hdot =>
      rw [List.filter_cons_of_pos (by simpa using hdot), List.length_cons]
      split at h
      · have hreached := ih h
        rw [List.length_dropLast] at hreached
        omega
      · split at h
        · cases h
        · split at h
          · cases h
          · cases h
          · have hreached := ih h
            rw [List.length_append, List.length_singleton] at hreached
            omega

/-- What the last part of a path leads to from the directory before it. -/
def ending (location : Location) (last : String) (endsWithSlash : Bool) : Except FileFault Target :=
  if last = "." then .ok (.directory location)
  else if last = ".." then .ok (.directory location.dropLast)
  else if last.utf8ByteSize > maxNameLength then .error .other
  else .ok (.name (location ++ [last]) endsWithSlash)

/-- Only the way to the last part depends on the disk. -/
theorem locate_eq_ok_iff {target : Target} :
    disk.locate path = .ok target ↔ ¬ path.isUnusable = true ∧
      (path.parts = [] ∧ path.isAbsolute = true ∧ .directory [] = target ∨
        ∃ front last location, path.parts = front ++ [last] ∧
          disk.enter [] front = .ok location ∧
          ending location last path.endsWithSlash = .ok target) := by
  rw [locate]
  split
  · next h => simp [h]
  · next h =>
    rw [and_iff_right h]
    cases hlast : path.parts.getLast? with
    | none =>
      obtain hnil := List.getLast?_eq_none_iff.mp hlast
      by_cases habsolute : path.isAbsolute = true <;> simp [hnil, habsolute]
    | some last =>
      obtain ⟨front, hparts⟩ := List.getLast?_eq_some_iff.mp hlast
      have hne : path.parts ≠ [] := by
        rw [hparts]
        exact List.append_ne_nil_of_right_ne_nil _ (List.cons_ne_nil _ _)
      simp only [hparts, List.dropLast_concat]
      constructor
      · intro hlocate
        split at hlocate
        · cases hlocate
        · next location henter => exact .inr ⟨front, last, location, rfl, henter, hlocate⟩
      · rintro (⟨hnil, -⟩ | ⟨front', last', location, heq, henter, hending⟩)
        · exact absurd (hparts.trans hnil) hne
        · obtain ⟨rfl, hlast⟩ := List.append_inj' heq rfl
          obtain rfl := List.singleton_inj.mp hlast
          rw [henter]
          exact hending

/-- A path leads to no name that is deeper than the path is. -/
theorem length_of_locate {place : Location} {onlyDirectory : Bool}
    (h : disk.locate path = .ok (.name place onlyDirectory)) : place.length ≤ path.depth := by
  obtain ⟨-, ⟨-, -, h⟩ | ⟨front, last, location, hparts, henter, hending⟩⟩ := locate_eq_ok_iff.mp h
  · cases h
  · have hreached := length_of_enter henter
    rw [ending] at hending
    split at hending
    · cases hending
    · next hdot =>
      have hdepth : path.depth = (front.filter (· ≠ ".")).length + 1 := by
        rw [Path.depth, hparts, List.filter_append, List.length_append]
        simp [hdot]
      split at hending
      · cases hending
      · split at hending
        · cases hending
        · cases hending
          rw [hdepth, List.length_append, List.length_singleton]
          simpa using hreached

/-! ## Trees -/

/-- What stands on a disk stands in a directory, and files have numbers that have been given out. A
file may have several names. -/
structure IsTree (disk : Disk) : Prop where
  numbered : disk.Numbered
  above : ∀ place entry, disk.occupant? place = some entry →
    disk.occupant? place.dropLast = some .directory

theorem isTree_empty : empty.IsTree := by
  refine ⟨numbered_empty, fun place entry h => ?_⟩
  by_cases hroot : place = []
  · rw [hroot]
    rfl
  · exact absurd (mem_entries_of_occupant h hroot) nofun

/-- Whatever is reached is a directory; a way that goes up asks for a tree. -/
theorem directory_of_enter {parts : List String} {location reached : Location}
    (h : disk.enter location parts = .ok reached) (hup : ".." ∈ parts → disk.IsTree)
    (hlocation : disk.occupant? location = some .directory) :
    disk.occupant? reached = some .directory := by
  induction parts generalizing location with
  | nil =>
    cases h
    exact hlocation
  | cons part parts ih =>
    have hrest : ".." ∈ parts → disk.IsTree := fun hmem => hup (List.mem_cons_of_mem part hmem)
    rw [enter] at h
    split at h
    · exact ih h hrest hlocation
    · split at h
      · next heq =>
        have htree := hup (heq ▸ List.mem_cons_self)
        exact ih h hrest (htree.above location _ hlocation)
      · split at h
        · cases h
        · split at h
          · cases h
          · cases h
          · next hdirectory => exact ih h hrest hdirectory

/-- The name that a path leads to is one in a directory. -/
theorem IsTree.directory_of_locate (hdisk : disk.IsTree) {place : Location} {onlyDirectory : Bool}
    (h : disk.locate path = .ok (.name place onlyDirectory)) :
    disk.occupant? place.dropLast = some .directory := by
  obtain ⟨-, ⟨-, -, h⟩ | ⟨front, last, location, -, henter, hending⟩⟩ := locate_eq_ok_iff.mp h
  · cases h
  · have hlocation := directory_of_enter henter (fun _ => hdisk) disk.occupant?_root
    rw [ending] at hending
    split at hending
    · cases hending
    · split at hending
      · cases hending
      · split at hending
        · cases hending
        · cases hending
          rwa [List.dropLast_concat]

/-- A tree stays one where directories are kept and what is new is put into one. -/
theorem IsTree.of_keepsDirectories (h : disk.IsTree) (hkeeps : disk.KeepsDirectories disk')
    (hnumbered : disk'.Numbered)
    (hnew : ∀ place entry, disk'.occupant? place = some entry → disk.occupant? place = none →
      disk.occupant? place.dropLast = some .directory) : disk'.IsTree := by
  refine ⟨hnumbered, fun place entry hplace => hkeeps _ ?_⟩
  cases hbefore : disk.occupant? place with
  | none => exact hnew place entry hplace hbefore
  | some before => exact h.above place before hbefore

/-! ## What making directories adds -/

/-- The second disk has more directories, each in another and none of them deeper than said. -/
structure Prepared (disk below : Disk) (depth : Nat) : Prop extends disk.AddsDirectories below where
  shallow : ∀ place, disk.occupant? place = none → below.occupant? place ≠ none →
    place.length ≤ depth
  isTree : disk.IsTree → below.IsTree

theorem Prepared.refl (disk : Disk) (depth : Nat) : disk.Prepared disk depth :=
  ⟨.refl disk, fun _ hnone hsome => absurd hnone hsome, id⟩

theorem Prepared.trans {depth : Nat} (h : disk.Prepared below depth) (h' : below.Prepared later depth) :
    disk.Prepared later depth := by
  refine ⟨h.toAddsDirectories.trans h'.toAddsDirectories, fun place hnone hsome => ?_,
    fun htree => h'.isTree (h.isTree htree)⟩
  by_cases hbelow : below.occupant? place = none
  · exact h'.shallow place hbelow hsome
  · exact h.shallow place hnone hbelow

theorem prepared_makeDirectory (h : disk.makeDirectory path = .ok below) :
    disk.Prepared below path.depth := by
  have hadds := (makeDirectory_eq_ok h).1
  obtain ⟨location, onlyDirectory, hname, hothers⟩ :
      ∃ location onlyDirectory, disk.locate path = .ok (.name location onlyDirectory) ∧
        ∀ place, place ≠ location → below.occupant? place = disk.occupant? place := by
    rw [makeDirectory] at h
    split at h
    · cases h
    · cases h
    · next location onlyDirectory hname =>
      split at h
      · cases h
      · cases h
        exact ⟨location, onlyDirectory, hname, fun _ => occupant?_setEntry_other _ _ _ _⟩
  have hnew : ∀ place, disk.occupant? place = none → below.occupant? place ≠ none →
      place = location := by
    intro place hnone hsome
    by_contra hplace
    exact hsome ((hothers place hplace).trans hnone)
  refine ⟨hadds, fun place hnone hsome => ?_, fun htree => ?_⟩
  · rw [hnew place hnone hsome]
    exact length_of_locate hname
  · refine htree.of_keepsDirectories hadds.keepsDirectories (hadds.numbered htree.numbered) ?_
    intro place entry hplace hnone
    rw [hnew place hnone (by simp [hplace])]
    exact htree.directory_of_locate hname

theorem Prepared.mono {depth deeper : Nat} (h : disk.Prepared below depth) (hle : depth ≤ deeper) :
    disk.Prepared below deeper :=
  ⟨h.toAddsDirectories, fun place hnone hsome => Nat.le_trans (h.shallow place hnone hsome) hle,
    h.isTree⟩

theorem prepared_ensureDirectory (disk : Disk) (path : Path) :
    disk.Prepared (disk.ensureDirectory path).2 path.depth := by
  rw [ensureDirectory]
  split
  · next hmade => exact prepared_makeDirectory hmade
  · split <;> exact .refl _ _

/-- Directories that are made in order, also where one of them cannot be made. -/
theorem prepared_ensureAll {paths : List Path} {depth : Nat} (h : ∀ p ∈ paths, p.depth ≤ depth) :
    disk.Prepared (disk.ensureAll paths).2 depth := by
  induction paths generalizing disk with
  | nil => exact .refl _ _
  | cons path rest ih =>
    obtain ⟨hpath, hrest⟩ := List.forall_mem_cons.mp h
    have hfirst := (prepared_ensureDirectory disk path).mono hpath
    rw [ensureAll]
    split
    · next hensured =>
      rw [hensured] at hfirst
      exact hfirst.trans (ih hrest)
    · next hensured =>
      rw [hensured] at hfirst
      exact hfirst

theorem prepared_ensureAll_chain {made : List Path} (h : made <+: path.chain) :
    disk.Prepared (disk.ensureAll made).2 path.depth :=
  prepared_ensureAll fun _ hmem => Path.depth_le_of_mem_chain (h.subset hmem)

/-- Whether it succeeds or fails, nothing but directories is added. -/
theorem prepared_makeDirectories (disk : Disk) (path : Path) :
    disk.Prepared (disk.makeDirectories path).2 path.depth := by
  rw [makeDirectories]
  split
  · exact .refl _ _
  · split
    · exact .refl _ _
    · exact prepared_ensureAll_chain (List.prefix_refl path.chain)

/-! ## Paths without `..` -/

/-- All the places above a directory are directories. -/
theorem IsTree.directory_above (h : disk.IsTree) {front back : Location}
    (hplace : disk.occupant? (front ++ back) = some .directory) :
    disk.occupant? front = some .directory := by
  induction back using List.reverseRecOn with
  | nil => rwa [List.append_nil] at hplace
  | append_singleton back last ih =>
    have habove := h.above _ _ hplace
    rw [← List.append_assoc, List.dropLast_concat] at habove
    exact ih habove

/-- Without `..` a way goes down only. -/
theorem reached_of_enter {parts : List String} {location reached : Location}
    (h : disk.enter location parts = .ok reached) (hplain : ".." ∉ parts) :
    reached = location ++ parts.filter (· ≠ ".") := by
  induction parts generalizing location with
  | nil =>
    cases h
    simp
  | cons part parts ih =>
    obtain ⟨hup, hplain⟩ := List.ne_and_not_mem_of_not_mem_cons hplain
    rw [enter] at h
    split at h
    · next hdot =>
      rw [ih h hplain]
      simp [hdot]
    · next hdot =>
      rw [if_neg hup.symm] at h
      split at h
      · cases h
      · split at h
        · cases h
        · cases h
        · rw [ih h hplain]
          simp [hdot]

/-- A way down to a place is there as soon as the place is a directory. -/
theorem IsTree.enter (hdisk : disk.IsTree) {parts : List String} {location reached : Location}
    (h : later.enter location parts = .ok reached) (hplain : ".." ∉ parts)
    (hreached : disk.occupant? reached = some .directory) :
    disk.enter location parts = .ok reached := by
  induction parts generalizing location with
  | nil => exact h
  | cons part parts ih =>
    have hway := reached_of_enter h hplain
    obtain ⟨hup, hplain⟩ := List.ne_and_not_mem_of_not_mem_cons hplain
    rw [Disk.enter] at h ⊢
    split
    · next hdot =>
      rw [if_pos hdot] at h
      exact ih h hplain
    · next hdot =>
      rw [if_neg hdot, if_neg hup.symm] at h
      rw [if_neg hup.symm]
      split
      · next hlong => simp only [if_pos hlong, reduceCtorEq] at h
      · next hlong =>
        rw [if_neg hlong] at h
        have hpart : disk.occupant? (location ++ [part]) = some .directory := by
          rw [hway, List.filter_cons_of_pos (by simpa using hdot), List.append_cons] at hreached
          exact hdisk.directory_above hreached
        rw [hpart]
        split at h
        · cases h
        · cases h
        · exact ih h hplain

/-- A path without `..` goes down from the root, to a directory or to a name in one. -/
theorem exists_enter_of_locate {target : Target} (h : disk.locate path = .ok target)
    (hplain : ".." ∉ path.parts) :
    ∃ front location, ".." ∉ front ∧ disk.enter [] front = .ok location ∧
      (∀ later : Disk, later.enter [] front = .ok location → later.locate path = .ok target) ∧
      (target = .directory location ∧ location = path.parts.filter (· ≠ ".") ∨
        ∃ last onlyDirectory, target = .name (location ++ [last]) onlyDirectory ∧
          location ++ [last] = path.parts.filter (· ≠ ".")) := by
  obtain ⟨husable, ⟨hparts, habsolute, rfl⟩ | ⟨front, last, location, hparts, henter, hending⟩⟩ :=
    locate_eq_ok_iff.mp h
  · refine ⟨[], [], nofun, rfl, fun later _ => ?_, .inl ⟨rfl, by rw [hparts]; rfl⟩⟩
    exact locate_eq_ok_iff.mpr ⟨husable, .inl ⟨hparts, habsolute, rfl⟩⟩
  · rw [hparts, List.mem_append, List.mem_singleton, not_or] at hplain
    obtain ⟨hfront, hup⟩ := hplain
    have hway := reached_of_enter henter hfront
    refine ⟨front, location, hfront, henter, fun later hlater => ?_, ?_⟩
    · exact locate_eq_ok_iff.mpr ⟨husable, .inr ⟨front, last, location, hparts, hlater, hending⟩⟩
    · rw [ending] at hending
      split at hending
      · next hdot =>
        cases hending
        exact .inl ⟨rfl, by simp [hparts, hway, hdot]⟩
      · next hdot =>
        rw [if_neg (Ne.symm hup)] at hending
        split at hending
        · cases hending
        · cases hending
          exact .inr ⟨last, _, rfl, by simp [hparts, hway, hdot]⟩

/-- What a path leads to, told by its last part. -/
theorem lookUp_eq_ok_iff {place : Location} {entry : Entry} :
    disk.lookUp path = .ok (place, entry) ↔
      disk.locate path = .ok (.directory place) ∧ entry = .directory ∨
      ∃ onlyDirectory, disk.locate path = .ok (.name place onlyDirectory) ∧
        disk.occupant? place = some entry ∧ (onlyDirectory = true → entry = .directory) := by
  rw [lookUp]
  cases hlocate : disk.locate path with
  | error fault => simp
  | ok target =>
    cases target with
    | directory location => simp [eq_comm]
    | name location onlyDirectory =>
      dsimp only
      constructor
      · intro h
        split at h
        · cases h
        · next hfile =>
          split at h
          · cases h
          · next honly =>
            cases h
            exact .inr ⟨onlyDirectory, rfl, hfile, fun h => absurd h honly⟩
        · next hdirectory =>
          cases h
          exact .inr ⟨onlyDirectory, rfl, hdirectory, fun _ => rfl⟩
      · rintro (⟨h, -⟩ | ⟨only, h, hoccupant, honly⟩)
        · cases h
        · cases h
          rw [hoccupant]
          cases entry with
          | directory => rfl
          | file number =>
            refine if_neg fun h => ?_
            cases honly h

/-- A path without `..` leads to the place that its names spell, and something stands there. -/
theorem place_of_lookUp {place : Location} {entry : Entry}
    (h : disk.lookUp path = .ok (place, entry)) (hplain : ".." ∉ path.parts) :
    place.length = path.depth ∧ disk.occupant? place = some entry := by
  obtain ⟨hlocate, rfl⟩ | ⟨onlyDirectory, hlocate, hoccupant, -⟩ := lookUp_eq_ok_iff.mp h
  · obtain ⟨front, location, hfront, henter, -, hend⟩ := exists_enter_of_locate hlocate hplain
    obtain ⟨heq, hnames⟩ | ⟨last, onlyDirectory, heq, -⟩ := hend
    · cases heq
      exact ⟨congrArg List.length hnames, directory_of_enter henter (absurd · hfront) rfl⟩
    · cases heq
  · obtain ⟨front, location, hfront, henter, -, hend⟩ := exists_enter_of_locate hlocate hplain
    obtain ⟨heq, -⟩ | ⟨last, onlyDirectory, heq, hnames⟩ := hend
    · cases heq
    · cases heq
      exact ⟨congrArg List.length hnames, hoccupant⟩

/-- What another disk has at the end of a path without `..` is found as soon as it stands there. -/
theorem IsTree.lookUp (hdisk : disk.IsTree) {place : Location} {entry : Entry}
    (h : later.lookUp path = .ok (place, entry)) (hplain : ".." ∉ path.parts)
    (hplace : disk.occupant? place = some entry) : disk.lookUp path = .ok (place, entry) := by
  rw [lookUp_eq_ok_iff] at h ⊢
  obtain ⟨hlocate, rfl⟩ | ⟨onlyDirectory, hlocate, -, honly⟩ := h
  · obtain ⟨front, location, hfront, henter, hfound, hend⟩ := exists_enter_of_locate hlocate hplain
    obtain ⟨heq, -⟩ | ⟨last, onlyDirectory, heq, -⟩ := hend
    · cases heq
      exact .inl ⟨hfound disk (hdisk.enter henter hfront hplace), rfl⟩
    · cases heq
  · obtain ⟨front, location, hfront, henter, hfound, hend⟩ := exists_enter_of_locate hlocate hplain
    obtain ⟨heq, -⟩ | ⟨last, onlyDirectory, heq, -⟩ := hend
    · cases heq
    · cases heq
      have habove : disk.occupant? location = some .directory := by
        simpa only [List.dropLast_concat] using hdisk.above _ _ hplace
      exact .inr ⟨_, hfound disk (hdisk.enter henter hfront habove), hplace, honly⟩

/-! ## What a path keeps -/

/-- The path is that of the name at the place. -/
def Leads (disk : Disk) (path : Path) (place : Location) : Prop :=
  ∃ onlyDirectory, disk.locate path = .ok (.name place onlyDirectory)

theorem KeepsDirectories.leads {place : Location} (h : disk.KeepsDirectories disk')
    (hleads : disk.Leads path place) : disk'.Leads path place :=
  hleads.imp fun _ => h.locate

/-- Where a path leads depends on the directories only. -/
theorem SameDirectories.leads_iff {place : Location} (h : disk.SameDirectories disk') :
    disk'.Leads path place ↔ disk.Leads path place :=
  ⟨h.2.leads, h.1.leads⟩

/-- A file is read if its path ends in a name, without a slash behind it, at which a file stands. -/
theorem read_iff {held : Bytes} : disk.read path = .ok held ↔
    ∃ place, disk.locate path = .ok (.name place false) ∧ disk.fileAt? place = some held := by
  constructor
  · intro h
    rw [read] at h
    split at h
    · cases h
    · cases h
    · next place number hlookUp =>
      cases h
      obtain ⟨hname, hfile⟩ := lookUp_file_occupant hlookUp
      exact ⟨place, hname, fileAt?_of_occupant hfile⟩
  · rintro ⟨place, hname, hheld⟩
    exact (read_eq_ok_iff hname).mpr hheld

/-- What a path leads to stands there, also if it is the directory that `..` goes up to. -/
theorem IsTree.occupant_of_lookUp (hdisk : disk.IsTree) {place : Location} {entry : Entry}
    (h : disk.lookUp path = .ok (place, entry)) : disk.occupant? place = some entry := by
  obtain ⟨hlocate, rfl⟩ | ⟨-, -, hoccupant, -⟩ := lookUp_eq_ok_iff.mp h
  · obtain ⟨-, ⟨-, -, heq⟩ | ⟨front, last, location, -, henter, hending⟩⟩ :=
      locate_eq_ok_iff.mp hlocate
    · cases heq
      rfl
    · have hlocation := directory_of_enter henter (fun _ => hdisk) disk.occupant?_root
      rw [ending] at hending
      split at hending
      · cases hending
        exact hlocation
      · split at hending
        · cases hending
          exact hdisk.above _ _ hlocation
        · split at hending <;> cases hending
  · exact hoccupant

/-- What becomes of a path where directories are made on the way to it, and to others. -/
structure Kept (disk disk' : Disk) (path : Path) : Prop where
  /-- What stood at the path stands there. -/
  stays : ∀ place entry, disk.lookUp path = .ok (place, entry) → disk'.lookUp path = .ok (place, entry)
  /-- A path that read as some bytes reads as these. -/
  kept : ∀ held, disk.read path = .ok held → disk'.read path = .ok held
  /-- Without `..` nothing stands at the path that did not stand there. -/
  absent : ".." ∉ path.parts → ∀ place entry,
    disk'.lookUp path = .ok (place, entry) → disk.lookUp path = .ok (place, entry)
  /-- What the path leads to was there before or is a directory that has been made. -/
  came : ∀ place entry, disk'.lookUp path = .ok (place, entry) →
    disk.occupant? place = some entry ∨ disk.occupant? place = none ∧ entry = .directory
  /-- If the path reads as some bytes, they are those of a file that was there before. -/
  found : ∀ held, disk'.read path = .ok held →
    ∃ place, disk'.Leads path place ∧ disk.fileAt? place = some held

/-- Making the directories above a path. -/
theorem Prepared.kept (h : disk.Prepared below path.parent.depth) (hdisk : disk.IsTree) :
    disk.Kept below path := by
  have hadds := h.toAddsDirectories
  have hkeeps := hadds.keepsDirectories
  constructor
  · intro place entry hlookUp
    rw [lookUp_eq_ok_iff] at hlookUp ⊢
    obtain ⟨hlocate, rfl⟩ | ⟨onlyDirectory, hname, hoccupant, honly⟩ := hlookUp
    · exact .inl ⟨hkeeps.locate hlocate, rfl⟩
    · refine .inr ⟨onlyDirectory, hkeeps.locate hname, ?_, honly⟩
      cases entry with
      | file number => exact hadds.occupant_file_iff.mpr hoccupant
      | directory => exact hkeeps place hoccupant
  · intro held hread
    obtain ⟨place, hname, hheld⟩ := read_iff.mp hread
    exact read_iff.mpr ⟨place, hkeeps.locate hname, (hadds.fileAt? place).trans hheld⟩
  · intro hplain place entry hlookUp
    obtain ⟨hlength, hoccupant⟩ := place_of_lookUp hlookUp hplain
    apply hdisk.lookUp hlookUp hplain
    rcases hadds.occupant place with hsame | ⟨hnone, hdirectory⟩
    · rw [← hsame, hoccupant]
    · -- a directory that has been made is not as deep as the path
      have hshallow := h.shallow place hnone (by rw [hdirectory]; exact nofun)
      rcases Nat.eq_zero_or_pos path.depth with hzero | hpos
      · rw [List.length_eq_zero_iff.mp (hlength.trans hzero)] at hnone
        cases hnone
      · have hlt := Path.depth_parent_lt hpos
        omega
  · intro place entry hlookUp
    have hoccupant := (h.isTree hdisk).occupant_of_lookUp hlookUp
    rcases hadds.occupant place with hsame | ⟨hnone, hdirectory⟩
    · exact .inl (hsame ▸ hoccupant)
    · rw [hdirectory] at hoccupant
      exact .inr ⟨hnone, (Option.some.inj hoccupant).symm⟩
  · intro held hread
    obtain ⟨place, hname, hheld⟩ := read_iff.mp hread
    exact ⟨place, ⟨_, hname⟩, (hadds.fileAt? place).symm.trans hheld⟩

/-- A path keeps what it leads to where neither the directories change nor its own file. -/
theorem SameDirectories.lookUp_iff (h : disk.SameDirectories disk')
    (hat : ∀ place, disk'.Leads path place → disk.SameAt disk' place) {place : Location}
    {entry : Entry} : disk'.lookUp path = .ok (place, entry) ↔ disk.lookUp path = .ok (place, entry) := by
  have hlocate {target : Target} : disk'.locate path = .ok target ↔ disk.locate path = .ok target :=
    ⟨h.2.locate, h.1.locate⟩
  rw [lookUp_eq_ok_iff, lookUp_eq_ok_iff, hlocate]
  apply or_congr_right
  apply exists_congr
  intro onlyDirectory
  rw [hlocate]
  apply and_congr_right
  intro hname
  rw [(hat place ⟨_, h.1.locate hname⟩).1]

/-- What comes later may change whatever the path does not lead to. -/
theorem Kept.trans_sameAt (h : disk.Kept below path) (hsame : below.SameDirectories later)
    (hat : ∀ place, later.Leads path place → below.SameAt later place) : disk.Kept later path := by
  have hread {held : Bytes} : later.read path = .ok held ↔ below.read path = .ok held := by
    rw [read_iff, read_iff]
    apply exists_congr
    intro place
    constructor
    · rintro ⟨hname, hheld⟩
      exact ⟨hsame.2.locate hname, (hat place ⟨_, hname⟩).2.symm.trans hheld⟩
    · rintro ⟨hname, hheld⟩
      have hname := hsame.1.locate hname
      exact ⟨hname, (hat place ⟨_, hname⟩).2.trans hheld⟩
  constructor
  · exact fun place entry hlookUp => (hsame.lookUp_iff hat).mpr (h.stays place entry hlookUp)
  · exact fun held hheld => hread.mpr (h.kept held hheld)
  · exact fun hplain place entry hlookUp =>
      h.absent hplain place entry ((hsame.lookUp_iff hat).mp hlookUp)
  · exact fun place entry hlookUp => h.came place entry ((hsame.lookUp_iff hat).mp hlookUp)
  · intro held hheld
    obtain ⟨place, hleads, hfile⟩ := h.found held (hread.mp hheld)
    exact ⟨place, hsame.1.leads hleads, hfile⟩

end Disk

end CircuitProof
