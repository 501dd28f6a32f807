import CircuitProof.Proofs.Files.Parents

/-!
# Files of one directory

The paths of several names in a directory have the same parent, so the first write makes the
directories for all of them. Names that are no beginnings of each other stay apart from each other's
temporary siblings; each write then changes the file of its own name and no other, as long as none of
the siblings is a second name of a file.
-/

namespace CircuitProof

/-! ## Paths in a directory -/

namespace Path

/-- A name that is the last part of a path behind it: it is not empty, has no slash and says
something. -/
structure PlainName (name : String) : Prop where
  nonempty : name.toList ≠ []
  noSlash : '/' ∉ name.toList
  ne_dot : name ≠ "."

theorem splitSlashes_ne_nil (cs : List Char) : splitSlashes cs ≠ [] := by
  cases cs with
  | nil => exact List.cons_ne_nil _ _
  | cons c cs =>
    rw [splitSlashes]
    split
    · exact List.cons_ne_nil _ _
    · split <;> exact List.cons_ne_nil _ _

theorem splitSlashes_append (front back : List Char) :
    splitSlashes (front ++ '/' :: back) = splitSlashes front ++ splitSlashes back := by
  induction front with
  | nil => rfl
  | cons c front ih =>
    rw [List.cons_append, splitSlashes, splitSlashes, ih]
    split
    · rfl
    · cases hfront : splitSlashes front with
      | nil => exact absurd hfront (splitSlashes_ne_nil front)
      | cons part parts => rfl

theorem splitSlashes_of_noSlash {cs : List Char} (h : '/' ∉ cs) : splitSlashes cs = [cs] := by
  induction cs with
  | nil => rfl
  | cons c cs ih =>
    obtain ⟨hc, hcs⟩ := List.ne_and_not_mem_of_not_mem_cons h
    rw [splitSlashes, if_neg hc.symm, ih hcs]

/-- What stands in front of a name: nothing, or something that ends with a slash. -/
def IsFront (front : List Char) : Prop := front = [] ∨ ∃ before, front = before ++ ['/']

/-- All the names of a directory are put behind the same text. -/
theorem exists_front (directory : String) :
    ∃ front, IsFront front ∧ ∀ name, (join directory name).toList = front ++ name.toList := by
  by_cases hempty : directory = ""
  · exact ⟨[], .inl rfl, fun name => by rw [join, if_pos hempty]; rfl⟩
  · by_cases hslash : directory.toList.getLast? = some '/'
    · refine ⟨directory.toList, .inr (List.getLast?_eq_some_iff.mp hslash), fun name => ?_⟩
      rw [join, if_neg hempty, if_pos hslash, String.toList_append]
    · refine ⟨directory.toList ++ ['/'], .inr ⟨_, rfl⟩, fun name => ?_⟩
      have hchar : "/".toList = ['/'] := rfl
      rw [join, if_neg hempty, if_neg hslash, String.toList_append, String.toList_append, hchar]

section
variable {front : List Char} {s name : String}

/-- What stands in front of a name gives the same parts for every name. -/
theorem exists_parts (hfront : IsFront front) :
    ∃ parts, ∀ {s name : String}, PlainName name → s.toList = front ++ name.toList →
      (ofString s).parts = parts ++ [name] := by
  have hname : ∀ {name : String}, PlainName name → splitSlashes name.toList = [name.toList] :=
    fun h => splitSlashes_of_noSlash h.noSlash
  rcases hfront with rfl | ⟨before, rfl⟩
  · refine ⟨[], fun hplain hs => ?_⟩
    rw [ofString, hs, List.nil_append, hname hplain]
    simp [hplain.nonempty]
  · refine ⟨((splitSlashes before).filter (· ≠ [])).map String.ofList, fun hplain hs => ?_⟩
    rw [ofString, hs, List.append_assoc, List.singleton_append, splitSlashes_append, hname hplain]
    simp [hplain.nonempty]

theorem exists_isAbsolute (hfront : IsFront front) :
    ∃ absolute, ∀ {s name : String}, PlainName name → s.toList = front ++ name.toList →
      (ofString s).isAbsolute = absolute := by
  rcases hfront with rfl | ⟨before, rfl⟩
  · refine ⟨false, fun {s name} hplain hs => decide_eq_false fun hhead => ?_⟩
    rw [hs, List.nil_append] at hhead
    exact hplain.noSlash (List.mem_of_head? hhead)
  · refine ⟨decide ((before ++ ['/']).head? = some '/'), fun hplain hs => ?_⟩
    rw [ofString, hs]
    cases before <;> rfl

/-- What is dropped from the end of a path for its parent's text is the name. -/
theorem exists_parentText (hfront : IsFront front) :
    ∃ kept, ∀ {s name : String}, PlainName name → s.toList = front ++ name.toList →
      dropSilent ((dropSilent (ofString s).text.toList.reverse).dropWhile (· ≠ '/')) = kept := by
  refine ⟨dropSilent front.reverse, fun {s name} hplain hs => ?_⟩
  have hnoSlash : ∀ c ∈ name.toList.reverse, decide (c ≠ '/') = true := by
    intro c hc
    rw [List.mem_reverse] at hc
    exact decide_eq_true fun h => hplain.noSlash (h ▸ hc)
  have hdrop : front.reverse.dropWhile (fun c => decide (c ≠ '/')) = front.reverse := by
    rcases hfront with rfl | ⟨before, rfl⟩
    · rfl
    · rw [List.reverse_append]
      rfl
  have hkeeps : dropSilent (name.toList.reverse ++ front.reverse) =
      name.toList.reverse ++ front.reverse := by
    cases hreverse : name.toList.reverse with
    | nil => exact absurd (List.reverse_eq_nil_iff.mp hreverse) hplain.nonempty
    | cons c cs =>
      have hmem : ∀ d ∈ c :: cs, d ≠ '/' := fun d hd =>
        of_decide_eq_true (hnoSlash d (hreverse ▸ hd))
      unfold dropSilent
      split
      · next hslash => exact absurd (List.cons.inj hslash).1 (hmem c List.mem_cons_self)
      · next rest hdot =>
        -- a slash behind the dot is not in the name, so the name is the dot
        obtain ⟨rfl, hrest⟩ := List.cons.inj hdot
        cases cs with
        | nil =>
          have hname : name.toList = ['.'] := by
            rw [← List.reverse_reverse name.toList, hreverse]
            rfl
          exact absurd (String.toList_inj.mp hname) hplain.ne_dot
        | cons d cs =>
          exact absurd (List.cons.inj hrest).1 (hmem d (List.mem_cons_of_mem _ List.mem_cons_self))
      · rfl
  have htext : (ofString s).text = s := rfl
  rw [htext, hs, List.reverse_append, hkeeps, List.dropWhile_append_of_pos hnoSlash, hdrop]

theorem dropLast_lexicalParts {p q : Path} {parts : List String} {a b : String}
    (hp : p.parts = parts ++ [a]) (hq : q.parts = parts ++ [b]) (ha : a ≠ ".") (hb : b ≠ ".")
    (habsolute : p.isAbsolute = q.isAbsolute) :
    p.lexicalParts.dropLast = q.lexicalParts.dropLast := by
  rw [lexicalParts, lexicalParts, hp, hq, habsolute]
  cases parts with
  | nil => simp [ha, hb]
  | cons first rest =>
    simp only [List.cons_append, List.filter_append]
    have hkept : ∀ name : String, name ≠ "." →
        [name].filter (fun part => decide (part ≠ ".")) = [name] :=
      fun name hname => by simp [hname]
    rw [hkept a ha, hkept b hb]
    split
    · rw [List.dropLast_concat, List.dropLast_concat]
    · rw [← List.cons_append, ← List.cons_append, List.dropLast_concat, List.dropLast_concat]

end

def inside (directory name : String) : Path := ofString (join directory name)

/-- The paths of all names of a directory have one parent, and its parts in front. -/
theorem exists_parent (directory : String) :
    ∃ parent parts, ∀ name, PlainName name →
      (inside directory name).parent = parent ∧ (inside directory name).parts = parts ++ [name] := by
  obtain ⟨front, hfront, hjoin⟩ := exists_front directory
  obtain ⟨parts, hparts⟩ := exists_parts hfront
  obtain ⟨absolute, habsolute⟩ := exists_isAbsolute hfront
  obtain ⟨kept, hkept⟩ := exists_parentText hfront
  have hplain : PlainName "a" := ⟨by decide, by decide, by decide⟩
  refine ⟨(inside directory "a").parent, parts, fun name hname => ⟨?_, ?_⟩⟩
  · have hlexical := dropLast_lexicalParts (hparts hname (hjoin name)) (hparts hplain (hjoin "a"))
      hname.ne_dot hplain.ne_dot
      ((habsolute hname (hjoin name)).trans (habsolute hplain (hjoin "a")).symm)
    simp only [inside, parent, parentText, parentParts, withParts, hkept hname (hjoin name),
      hkept hplain (hjoin "a"), habsolute hname (hjoin name), habsolute hplain (hjoin "a"), hlexical]
  · exact hparts hname (hjoin name)

end Path

/-! ## Writing in a directory -/

namespace Disk

variable {disk disk' below : Disk} {path : Path} {suffix directory : String} {names : List String}
  {base : Location}

/-- Some bytes can be written to the path. -/
def Accepts (disk : Disk) (suffix : String) (path : Path) : Prop :=
  ∃ bytes disk', disk.writeAtomic suffix path bytes = (.ok (), disk')

/-- No name is the beginning of another one. -/
def Apart (names : List String) : Prop :=
  ∀ a ∈ names, ∀ b ∈ names, a.toList <+: b.toList → a = b

instance (names : List String) : Decidable (Apart names) :=
  inferInstanceAs (Decidable (∀ a ∈ names, ∀ b ∈ names, a.toList <+: b.toList → a = b))

/-- The directory is there, at the location, and files can stand at the names in it. -/
structure Hosts (disk : Disk) (suffix directory : String) (names : List String) (base : Location) :
    Prop where
  numbered : disk.Numbered
  ready : ∀ name ∈ names, ∃ source, disk.Ready (Path.inside directory name)
    ((Path.inside directory name).sibling suffix) (base ++ [name]) source
  leads : ∀ name place, Path.PlainName name → disk.Leads (Path.inside directory name) place →
    place = base ++ [name]

/-- The disk hosts the names. Some of them have been written, each to its bytes, since the disk was
as it was at the start, and what begins with none of these names has not changed. -/
structure Wrote (start disk : Disk) (suffix directory : String) (names : List String)
    (base : Location) (written : List (String × Bytes)) : Prop where
  hosts : disk.Hosts suffix directory names base
  sameDirectories : start.SameDirectories disk
  sole : ∀ place, start.Sole place → disk.Sole place
  holds : ∀ name ∈ names, ∀ bytes, written.lookup name = some bytes →
    disk.fileAt? (base ++ [name]) = some bytes
  same : ∀ name, (∀ other ∈ written.map Prod.fst, ¬ other.toList <+: name.toList) →
    start.SameAt disk (base ++ [name])

/-- Files of the directory are written in order, and each of the writes succeeds. -/
def Writes (suffix directory : String) : Disk → List (String × Bytes) → Disk → Prop
  | disk, [], disk' => disk = disk'
  | disk, (name, bytes) :: items, disk' =>
    ∃ between, disk.writeAtomic suffix (Path.inside directory name) bytes = (.ok (), between) ∧
      Writes suffix directory between items disk'

theorem locate_eq_name {path : Path} {parts : List String} {name : String} {target : Location}
    {only : Bool} (hparts : path.parts = parts ++ [name])
    (h : disk.locate path = .ok (.name target only)) :
    ∃ base, disk.enter [] parts = .ok base ∧ target = base ++ [name] := by
  obtain ⟨-, ⟨-, -, heq⟩ | ⟨front, last, location, hsplit, henter, hending⟩⟩ :=
    locate_eq_ok_iff.mp h
  · cases heq
  · obtain ⟨rfl, hlast⟩ := List.append_inj' (hparts.symm.trans hsplit) rfl
    obtain rfl := List.singleton_inj.mp hlast
    rw [ending] at hending
    split at hending
    · cases hending
    · split at hending
      · cases hending
      · split at hending
        · cases hending
        · cases hending
          exact ⟨location, henter, rfl⟩

/-- A list of writes can be cut anywhere. -/
theorem writes_append {before items : List (String × Bytes)} {later : Disk} :
    Writes suffix directory disk (before ++ items) later ↔
      ∃ disk', Writes suffix directory disk before disk' ∧ Writes suffix directory disk' items later := by
  induction before generalizing disk with
  | nil => simp [Writes]
  | cons item before ih =>
    simp only [List.cons_append, Writes, ih]
    constructor
    · rintro ⟨between, hwrite, disk', hbefore, hitems⟩
      exact ⟨disk', ⟨between, hwrite, hbefore⟩, hitems⟩
    · rintro ⟨disk', ⟨between, hwrite, hbefore⟩, hitems⟩
      exact ⟨between, hwrite, disk', hbefore, hitems⟩

/-- Where each of the names can be written, making the directories makes room for all of them. -/
theorem exists_hosts (hsuffix : suffix ≠ "") (hdisk : disk.Numbered) (hnames : names ≠ [])
    (hplain : ∀ name ∈ names, Path.PlainName name)
    (haccepts : ∀ name ∈ names, disk.Accepts suffix (Path.inside directory name)) :
    ∃ below base, below.Hosts suffix directory names base ∧
      (∀ name, Path.PlainName name →
        disk.makeDirectories (Path.inside directory name).parent = (.ok (), below)) ∧
      ∀ name ∈ names, ∀ bytes disk',
        disk.writeAtomic suffix (Path.inside directory name) bytes = (.ok (), disk') ↔
          below.writeAtomic suffix (Path.inside directory name) bytes = (.ok (), disk') := by
  obtain ⟨parent, parts, hpaths⟩ := Path.exists_parent directory
  have hready : ∀ name ∈ names, ∃ below target source,
      disk.makeDirectories parent = (.ok (), below) ∧ disk.AddsDirectories below ∧
      below.Ready (Path.inside directory name)
        ((Path.inside directory name).sibling suffix) target source := by
    intro name hname
    obtain ⟨bytes, disk', hwrite⟩ := haccepts name hname
    rw [← (hpaths name (hplain name hname)).1]
    exact ready_of_writeAtomic hsuffix hwrite
  obtain ⟨first, hfirst⟩ := List.exists_mem_of_ne_nil names hnames
  obtain ⟨below, target, source, hparents, hadds, hbelow⟩ := hready first hfirst
  obtain ⟨base, hbase, -⟩ := locate_eq_name (hpaths first (hplain first hfirst)).2 hbelow.locate_target
  have hleads : ∀ name place, Path.PlainName name →
      below.Leads (Path.inside directory name) place → place = base ++ [name] := by
    rintro name place hname ⟨_, hlocate⟩
    obtain ⟨base', hbase', rfl⟩ := locate_eq_name (hpaths name hname).2 hlocate
    rw [hbase] at hbase'
    cases hbase'
    rfl
  refine ⟨below, base, ⟨hadds.numbered hdisk, fun name hname => ?_, hleads⟩, fun name hname => ?_,
    fun name hname bytes disk' => ?_⟩
  · obtain ⟨below', target', source', hparents', -, hbelow'⟩ := hready name hname
    obtain rfl : below = below' := congrArg Prod.snd (hparents.symm.trans hparents')
    obtain rfl := hleads name target' (hplain name hname) ⟨_, hbelow'.locate_target⟩
    exact ⟨source', hbelow'⟩
  · rw [(hpaths name hname).1, hparents]
  · have hparent := (hpaths name (hplain name hname)).1
    have hmade := hbelow.makeDirectories
    rw [(hpaths first (hplain first hfirst)).1] at hmade
    exact writeAtomic_of_makeDirectories (hparent ▸ hparents) (hparent ▸ hmade)

/-- Nothing has been written yet. -/
theorem Hosts.wrote_nil (h : disk.Hosts suffix directory names base) :
    disk.Wrote disk suffix directory names base [] where
  hosts := h
  sameDirectories := .refl disk
  sole _ h := h
  holds := nofun
  same _ _ := ⟨rfl, rfl⟩

/-- A temporary sibling is no name that the name is not the beginning of. -/
theorem source_ne (hsuffix : suffix ≠ "") {name other : String}
    (hapart : name.toList <+: other.toList → name = other) {source : Location}
    (h : disk.Ready (Path.inside directory name) ((Path.inside directory name).sibling suffix)
      (base ++ [name]) source) : base ++ [other] ≠ source := by
  obtain ⟨last, hlast, htarget, hdot, hdots⟩ := getLast?_of_locate h.locate_target
  obtain ⟨last', hlast', hsource, -, -⟩ := getLast?_of_locate h.locate_source
  obtain rfl : name = last := by simpa using htarget
  rw [Path.getLast?_parts_sibling hlast hdot hdots, Option.some.injEq] at hlast'
  rintro rfl
  obtain rfl : other = last' := by simpa using hsource
  have hsame := hapart (by rw [← hlast', String.toList_append]; simp)
  rw [← hsame] at hlast'
  exact hsuffix (by simpa using congrArg String.length hlast')

namespace Wrote

variable {start : Disk} {written : List (String × Bytes)}

/-- A write in the directory succeeds and changes the file of its name and of no other. -/
theorem exists_writeAtomic (h : start.Wrote disk suffix directory names base written)
    (hsuffix : suffix ≠ "") (hapart : Apart names) {name : String} (hname : name ∈ names)
    (hunshared : start.Unshared ((Path.inside directory name).sibling suffix)) (bytes : Bytes) :
    ∃ disk', disk.writeAtomic suffix (Path.inside directory name) bytes = (.ok (), disk') ∧
      start.Wrote disk' suffix directory names base ((name, bytes) :: written) := by
  obtain ⟨source, hready⟩ := h.hosts.ready name hname
  have hsource := hunshared.sole (h.sameDirectories.2.locate hready.locate_source)
  obtain ⟨disk', hwrite, hreplaced⟩ :=
    hready.exists_writeAtomic h.hosts.numbered (h.sole source hsource) bytes
  have hothers : ∀ other, (name.toList <+: other.toList → name = other) → other ≠ name →
      disk.SameAt disk' (base ++ [other]) := fun other hother hne =>
    hreplaced.others _ (by simpa using hne) (source_ne hsuffix hother hready)
  have hsame := hreplaced.sameDirectories
  refine ⟨disk', hwrite, ⟨⟨hreplaced.numbered, ?_, ?_⟩, h.sameDirectories.trans hsame,
    fun place hplace => hreplaced.sole place (h.sole place hplace),
    fun other hother bytes' hbytes => ?_, fun other hother => ?_⟩⟩
  · intro other hother
    obtain ⟨source', hother'⟩ := h.hosts.ready other hother
    exact ⟨source', hother'.keeps hsame⟩
  · exact fun other place hother hleads => h.hosts.leads other place hother (hsame.2.leads hleads)
  · rw [List.lookup_cons] at hbytes
    split at hbytes
    · next heq =>
      obtain rfl := Option.some.inj hbytes
      rw [beq_iff_eq.mp heq, hreplaced.written]
    · next hne =>
      rw [(hothers other (hapart name hname other hother) (beq_eq_false_iff_ne.mp hne)).2]
      exact h.holds other hother bytes' hbytes
  · rw [List.map_cons] at hother
    obtain ⟨hbegins, hother⟩ := List.forall_mem_cons.mp hother
    apply (h.same other hother).trans (hothers other (fun h => absurd h hbegins) ?_)
    rintro rfl
    exact hbegins (List.prefix_refl _)

/-- All the writes of a list succeed. -/
theorem exists_writes (h : start.Wrote disk suffix directory names base written)
    (hsuffix : suffix ≠ "") (hapart : Apart names) {items : List (String × Bytes)}
    (hitems : ∀ item ∈ items, item.1 ∈ names ∧
      start.Unshared ((Path.inside directory item.1).sibling suffix)) :
    ∃ disk', Writes suffix directory disk items disk' ∧
      start.Wrote disk' suffix directory names base (items.reverse ++ written) := by
  induction items generalizing disk written with
  | nil => exact ⟨disk, rfl, h⟩
  | cons item items ih =>
    obtain ⟨⟨hitem, hunshared⟩, hitems⟩ := List.forall_mem_cons.mp hitems
    obtain ⟨between, hwrite, hbetween⟩ :=
      h.exists_writeAtomic hsuffix hapart hitem hunshared item.2
    obtain ⟨disk', hwrites, hwrote⟩ := ih hbetween hitems
    refine ⟨disk', ⟨between, hwrite, hwrites⟩, ?_⟩
    rwa [List.reverse_cons, List.append_assoc]

/-- The names in the directory lead where they led at the start. -/
theorem locate_eq (h : start.Wrote disk suffix directory names base written) {name : String}
    (hname : name ∈ names) :
    disk.locate (Path.inside directory name) = .ok (.name (base ++ [name]) false) := by
  obtain ⟨source, hready⟩ := h.hosts.ready name hname
  exact hready.locate_target

/-- Where the temporary sibling of a name leads does not change. -/
theorem ready (h : start.Wrote disk suffix directory names base written) {name : String}
    (hname : name ∈ names) {source : Location}
    (hsource : start.locate ((Path.inside directory name).sibling suffix) = .ok (.name source false)) :
    disk.Ready (Path.inside directory name) ((Path.inside directory name).sibling suffix)
      (base ++ [name]) source := by
  obtain ⟨source', hready⟩ := h.hosts.ready name hname
  have hlocate := h.sameDirectories.1.locate hsource
  rw [hready.locate_source] at hlocate
  cases hlocate
  exact hready

/-- A name that has been written reads as what was written last. -/
theorem read_eq (h : start.Wrote disk suffix directory names base written) {name : String}
    (hname : name ∈ names) {bytes : Bytes} (hbytes : written.lookup name = some bytes) :
    disk.read (Path.inside directory name) = .ok bytes :=
  (read_eq_ok_iff (h.locate_eq hname)).mpr (h.holds name hname bytes hbytes)

/-- Wherever the path of a name leads that has not been written, the same stands there. -/
theorem sameAt_of_leads (h : start.Wrote disk suffix directory names base written) {name : String}
    (hplain : Path.PlainName name)
    (hapart : ∀ other ∈ written.map Prod.fst, ¬ other.toList <+: name.toList) :
    ∀ place, disk.Leads (Path.inside directory name) place → start.SameAt disk place := by
  intro place hleads
  obtain rfl := h.hosts.leads name place hplain hleads
  exact h.same name hapart

/-- A name that has not been written is kept from before the directories were made. -/
theorem kept (h : below.Wrote disk suffix directory names base written) {name : String}
    (hstart : start.IsTree)
    (hmade : start.makeDirectories (Path.inside directory name).parent = (.ok (), below))
    (hplain : Path.PlainName name)
    (hapart : ∀ other ∈ written.map Prod.fst, ¬ other.toList <+: name.toList) :
    start.Kept disk (Path.inside directory name) := by
  have hprepared := prepared_makeDirectories start (Path.inside directory name).parent
  rw [hmade] at hprepared
  exact (hprepared.kept hstart).trans_sameAt h.sameDirectories (h.sameAt_of_leads hplain hapart)

end Wrote

/-- Where each of the names can be written, all of a list of them can be, in order, whose temporary
siblings are no second names. -/
theorem exists_writes_of_accepts (hsuffix : suffix ≠ "") (hdisk : disk.Numbered) (hapart : Apart names)
    (hplain : ∀ name ∈ names, Path.PlainName name)
    (haccepts : ∀ name ∈ names, disk.Accepts suffix (Path.inside directory name))
    {item : String × Bytes} {items : List (String × Bytes)}
    (hitems : ∀ other ∈ item :: items, other.1 ∈ names ∧
      disk.Unshared ((Path.inside directory other.1).sibling suffix)) :
    ∃ below base disk', Writes suffix directory disk (item :: items) disk' ∧
      below.Wrote disk' suffix directory names base (item :: items).reverse ∧
      ∀ name, Path.PlainName name →
        disk.makeDirectories (Path.inside directory name).parent = (.ok (), below) := by
  obtain ⟨hitem, -⟩ := hitems item List.mem_cons_self
  obtain ⟨below, base, hhosts, hmade, hsame⟩ :=
    exists_hosts hsuffix hdisk (List.ne_nil_of_mem hitem) hplain haccepts
  have hadds := (makeDirectories_eq_ok (hmade item.1 (hplain item.1 hitem))).1
  obtain ⟨disk', ⟨between, hwrite, hwrites⟩, hwrote⟩ :=
    hhosts.wrote_nil.exists_writes hsuffix hapart fun other hother =>
      let ⟨hmem, hunshared⟩ := hitems other hother
      ⟨hmem, hadds.unshared hunshared⟩
  rw [List.append_nil] at hwrote
  -- the first write makes the directories on its way
  exact ⟨below, base, disk', ⟨between, (hsame item.1 hitem item.2 between).mpr hwrite, hwrites⟩,
    hwrote, hmade⟩

/-- A write replaces its file on the disk on which the directories on its way have been made. -/
theorem exists_replaced_of_writeAtomic (hsuffix : suffix ≠ "") (hdisk : disk.Numbered)
    (hunshared : disk.Unshared (path.sibling suffix)) {bytes : Bytes}
    (h : disk.writeAtomic suffix path bytes = (.ok (), disk')) :
    ∃ below target source, disk.makeDirectories path.parent = (.ok (), below) ∧
      disk.AddsDirectories below ∧ below.Ready path (path.sibling suffix) target source ∧
      below.Replaced disk' target source bytes := by
  obtain ⟨below, target, source, hparents, hadds, hready⟩ := ready_of_writeAtomic hsuffix h
  obtain ⟨disk'', hwrite, hreplaced⟩ := hready.exists_writeAtomic (hadds.numbered hdisk)
    ((hadds.unshared hunshared).sole hready.locate_source) bytes
  rw [← writeAtomic_of_makeDirectories hparents hready.makeDirectories, h] at hwrite
  cases hwrite
  exact ⟨below, target, source, hparents, hadds, hready, hreplaced⟩

/-- What can be written behind another file of the directory can be written in its place. -/
theorem accepts_of_writeAtomic (hsuffix : suffix ≠ "") (hdisk : disk.Numbered) {name other : String}
    (hname : Path.PlainName name) (hother : Path.PlainName other)
    (hunshared : disk.Unshared ((Path.inside directory name).sibling suffix))
    (hunshared' : disk.Unshared ((Path.inside directory other).sibling suffix)) {bytes : Bytes}
    (hwrite : disk.writeAtomic suffix (Path.inside directory name) bytes = (.ok (), disk'))
    (haccepts : disk'.Accepts suffix (Path.inside directory other)) :
    disk.Accepts suffix (Path.inside directory other) := by
  obtain ⟨parent, parts, hpaths⟩ := Path.exists_parent directory
  obtain ⟨below, target, source, hparents, hadds, hready, hreplaced⟩ :=
    exists_replaced_of_writeAtomic hsuffix hdisk hunshared hwrite
  obtain ⟨bytes', later, hlater⟩ := haccepts
  obtain ⟨below', target', source', hparents', -, hready'⟩ := ready_of_writeAtomic hsuffix hlater
  -- the write has made the directories of both names
  have hmade := (hready.keeps hreplaced.sameDirectories).makeDirectories
  rw [(hpaths name hname).1] at hmade hparents
  rw [(hpaths other hother).1] at hparents'
  obtain rfl : disk' = below' := congrArg Prod.snd (hmade.symm.trans hparents')
  have hbelow := hready'.keeps hreplaced.sameDirectories.symm
  obtain ⟨disk'', hwrite', -⟩ := hbelow.exists_writeAtomic (hadds.numbered hdisk)
    ((hadds.unshared hunshared').sole hbelow.locate_source) bytes'
  refine ⟨bytes', disk'', (writeAtomic_of_makeDirectories ?_ hbelow.makeDirectories).mpr hwrite'⟩
  rw [(hpaths other hother).1, hparents]

/-- Each of several files that are written one behind the other could be written as the first. -/
theorem accepts_of_writes (hsuffix : suffix ≠ "") (hdisk : disk.Numbered)
    {items : List (String × Bytes)}
    (hitems : ∀ item ∈ items, Path.PlainName item.1 ∧
      disk.Unshared ((Path.inside directory item.1).sibling suffix))
    (h : Writes suffix directory disk items disk') :
    ∀ item ∈ items, disk.Accepts suffix (Path.inside directory item.1) := by
  induction items generalizing disk with
  | nil => simp
  | cons first items ih =>
    obtain ⟨⟨hfirst, hunshared⟩, hitems⟩ := List.forall_mem_cons.mp hitems
    obtain ⟨between, hwrite, hwrites⟩ := h
    refine List.forall_mem_cons.mpr ⟨⟨_, _, hwrite⟩, fun item hitem => ?_⟩
    obtain ⟨below, target, source, -, hadds, -, hreplaced⟩ :=
      exists_replaced_of_writeAtomic hsuffix hdisk hunshared hwrite
    have hbetween := ih hreplaced.numbered (fun other hother => ⟨(hitems other hother).1,
      fun place hplace => hreplaced.sole place (hadds.unshared (hitems other hother).2 place hplace)⟩)
      hwrites item hitem
    exact accepts_of_writeAtomic hsuffix hdisk hfirst (hitems item hitem).1 hunshared
      (hitems item hitem).2 hwrite hbetween

/-- In a directory that is there the writes start from the disk as it is. -/
theorem exists_writes_of_there (hsuffix : suffix ≠ "") (hdisk : disk.Numbered) (hapart : Apart names)
    (hplain : ∀ name ∈ names, Path.PlainName name)
    (haccepts : ∀ name ∈ names, disk.Accepts suffix (Path.inside directory name))
    {item : String × Bytes} {items : List (String × Bytes)}
    (hthere : disk.makeDirectories (Path.inside directory item.1).parent = (.ok (), disk))
    (hbase : disk.locate (Path.inside directory item.1) = .ok (.name (base ++ [item.1]) false))
    (hitems : ∀ other ∈ item :: items, other.1 ∈ names ∧
      disk.Unshared ((Path.inside directory other.1).sibling suffix)) :
    ∃ disk', Writes suffix directory disk (item :: items) disk' ∧
      disk.Wrote disk' suffix directory names base (item :: items).reverse := by
  obtain ⟨below, base', disk', hwrites, hwrote, hmade⟩ :=
    exists_writes_of_accepts hsuffix hdisk hapart hplain haccepts hitems
  have hitem : Path.PlainName item.1 := hplain item.1 (hitems item List.mem_cons_self).1
  obtain rfl : disk = below := congrArg Prod.snd (hthere.symm.trans (hmade item.1 hitem))
  have hplace := hwrote.hosts.leads item.1 _ hitem ⟨_, hwrote.sameDirectories.1.locate hbase⟩
  obtain rfl : base = base' := List.append_inj_left' hplace rfl
  exact ⟨disk', hwrites, hwrote⟩

end Disk

end CircuitProof
