import CircuitProof.Proofs.Files.Replacement

/-!
# Two writers of one path

Two writers of a process that write to the same path have the same temporary file. One of them can
empty it after the other has synced it, and whoever renames first shows what is in it at that
moment. So the path can hold no bytes at all, or the bytes of one writer laid over those of the
other, but nothing else beside what the claim of atomicity allows.
-/

namespace CircuitProof

/-- The first bytes written from the start of a file that holds the second ones. -/
def overlay (top bottom : Bytes) : Bytes := top ++ bottom.drop top.length

/-- What a file holds once at least one of two writers has written to it. -/
def Mixed (b b' contents : Bytes) : Prop :=
  contents = b ∨ contents = b' ∨ contents = overlay b b' ∨ contents = overlay b' b

theorem Mixed.symm {b b' contents : Bytes} (h : Mixed b b' contents) : Mixed b' b contents := by
  rcases h with h | h | h | h
  · exact .inr (.inl h)
  · exact .inl h
  · exact .inr (.inr (.inr h))
  · exact .inr (.inr (.inl h))

theorem overlay_nil (b : Bytes) : overlay b [] = b := by rw [overlay, List.drop_nil, List.append_nil]

theorem overlay_append (b rest : Bytes) : overlay b (b ++ rest) = b ++ rest := by
  rw [overlay, List.drop_left]

/-- Writing over a mixture gives a mixture. -/
theorem mixed_overlay {b b' contents : Bytes} (h : Mixed b b' contents ∨ contents = []) :
    Mixed b b' (overlay b contents) := by
  rcases h with (rfl | rfl | rfl | rfl) | rfl
  · have hself := overlay_append contents []
    rw [List.append_nil] at hself
    exact .inl hself
  · exact .inr (.inr (.inl rfl))
  · exact .inr (.inr (.inl (overlay_append b _)))
  · have hle : b.length ≤ b'.length + (b.length - b'.length) := by omega
    have hrest : (overlay b' b).drop b.length = b'.drop b.length := by
      rw [overlay, List.drop_append, List.drop_drop, List.drop_eq_nil_of_le hle, List.append_nil]
    exact .inr (.inr (.inl (by rw [overlay, hrest, overlay])))
  · exact .inl (overlay_nil b)

/-- Mixtures are whole exactly where one of the two is written over the other without a trace. -/
theorem mixed_whole_iff {b b' : Bytes} :
    (∀ contents, Mixed b b' contents → contents = b ∨ contents = b') ↔
      b.length = b'.length ∨ b <+: b' ∨ b' <+: b := by
  constructor
  · intro h
    have hleft := h (overlay b b') (.inr (.inr (.inl rfl)))
    have hright := h (overlay b' b) (.inr (.inr (.inr rfl)))
    rcases Nat.lt_trichotomy b.length b'.length with hlt | heq | hgt
    · refine .inr (.inl ?_)
      rcases hleft with hleft | hleft
      · have hlength := congrArg List.length hleft
        simp only [overlay, List.length_append, List.length_drop] at hlength
        omega
      · exact ⟨_, hleft⟩
    · exact .inl heq
    · refine .inr (.inr ?_)
      rcases hright with hright | hright
      · exact ⟨_, hright⟩
      · have hlength := congrArg List.length hright
        simp only [overlay, List.length_append, List.length_drop] at hlength
        omega
  · intro h
    have hcovers : ∀ {top bottom : Bytes}, bottom.length ≤ top.length → overlay top bottom = top := by
      intro top bottom hle
      rw [overlay, List.drop_eq_nil_of_le hle, List.append_nil]
    have hoverlay : overlay b b' = b ∨ overlay b b' = b' := by
      rcases h with heq | ⟨rest, rfl⟩ | hprefix
      · exact .inl (hcovers (Nat.le_of_eq heq.symm))
      · exact .inr (overlay_append b rest)
      · exact .inl (hcovers hprefix.length_le)
    have hoverlay' : overlay b' b = b ∨ overlay b' b = b' := by
      rcases h with heq | hprefix | ⟨rest, rfl⟩
      · exact .inr (hcovers (Nat.le_of_eq heq))
      · exact .inr (hcovers hprefix.length_le)
      · exact .inl (overlay_append b' rest)
    rintro contents (rfl | rfl | rfl | rfl)
    · exact .inl rfl
    · exact .inr rfl
    · exact hoverlay
    · exact hoverlay'

structure Race where
  first : Writer
  second : Writer
  disk : Disk

namespace Race

inductive Turn where
  | first
  | second

def step (r : Race) : Turn → Race
  | .first => ⟨(r.first.step none r.disk).1, r.second, (r.first.step none r.disk).2⟩
  | .second => ⟨r.first, (r.second.step none r.disk).1, (r.second.step none r.disk).2⟩

def run (r : Race) (schedule : List Turn) : Race := schedule.foldl step r

/-- Two writers of one process that are about to write to the same path. -/
def start (suffix : String) (path : Path) (b b' : Bytes) (disk : Disk) : Race :=
  ⟨.start suffix path b, .start suffix path b', disk⟩

def Ended (r : Race) : Prop := r.first.result?.isSome ∧ r.second.result?.isSome

end Race

namespace WritePhase

/-- The temporary file has been created and not been renamed yet. -/
def Holding : WritePhase → Prop
  | write _ | flush | sync | rename => True
  | _ => False

/-- The writer has not come to its temporary file yet. -/
def Early : WritePhase → Prop
  | makeParents | create => True
  | _ => False

def Failed : WritePhase → Prop
  | cleanUp _ | done (.error _) => True
  | _ => False

theorem exists_done {path temporary : Path} {bytes : Bytes} {p : WritePhase}
    (h : (Writer.mk path temporary bytes p).result?.isSome) : ∃ result, p = .done result := by
  cases p with
  | done result => exact ⟨result, rfl⟩
  | _ => simp [Writer.result?] at h

end WritePhase

namespace Writer

variable (path temporary : Path) (bytes : Bytes) (disk : Disk)

theorem step_write (number : Nat) :
    (Writer.mk path temporary bytes (.write number)).step none disk =
      (⟨path, temporary, bytes, .flush⟩, disk.write number bytes) := rfl

theorem step_flush :
    (Writer.mk path temporary bytes .flush).step none disk =
      (⟨path, temporary, bytes, .sync⟩, disk) := rfl

theorem step_sync :
    (Writer.mk path temporary bytes .sync).step none disk =
      (⟨path, temporary, bytes, .rename⟩, disk) := rfl

/-- A temporary file that is not there cannot be removed, and nothing changes. -/
theorem step_cleanUp_of_error {fault reported : FileFault} (h : disk.remove temporary = .error fault) :
    (Writer.mk path temporary bytes (.cleanUp reported)).step none disk =
      (⟨path, temporary, bytes, .done (.error reported)⟩, disk) := by
  simp only [step, h, inPhase]

end Writer

/-- What two writers of one path have in common and what each of them writes. -/
structure Contest where
  path : Path
  temporary : Path
  /-- Where the path and the temporary file are. -/
  target : Location
  source : Location
  b : Bytes
  b' : Bytes
  /-- The disk once the directories are there. -/
  below : Disk

namespace Contest

def swap (c : Contest) : Contest := { c with b := c.b', b' := c.b }

section
variable (c : Contest)

/-- A file that stood at the temporary name to begin with, or was made since. -/
def InPlay (number : Nat) : Prop :=
  c.below.occupant? c.source = some (.file number) ∨ c.below.nextNumber ≤ number

/-- A file that the writers, in their phases, work on. It has been written to, or it is empty and
one of them is about to write to it. -/
structure Sound (p p' : WritePhase) (disk : Disk) (number : Nat) : Prop where
  inPlay : c.InPlay number
  contents : Mixed c.b c.b' (disk.bytesOf number) ∨
    disk.bytesOf number = [] ∧ (p = .write number ∨ p' = .write number)

/-- What the phase of one writer says about the other and about the disk. -/
structure Consistent (p p' : WritePhase) (disk : Disk) : Prop where
  writes : ∀ number, p = .write number → c.Sound p p' disk number
  holds : p.Holding → disk.occupant? c.source ≠ none ∨ p' = .done (.ok ())
  failed : p.Failed → disk.occupant? c.source = none ∧ p' = .done (.ok ())
  renamed : p = .done (.ok ()) →
    ∃ number, disk.occupant? c.target = some (.file number) ∧ c.Sound p p' disk number

/-- What holds between the moves of the two writers, from when the directories are there. -/
structure Inv (p p' : WritePhase) (disk : Disk) : Prop where
  ready : disk.Ready c.path c.temporary c.target c.source
  numbered : disk.Numbered
  sole : disk.Sole c.source
  nextNumber : c.below.nextNumber ≤ disk.nextNumber
  untouched : ∀ number, ¬ c.InPlay number → disk.bytesOf number = c.below.bytesOf number
  target : disk.occupant? c.target = c.below.occupant? c.target ∨
    ∃ number, disk.occupant? c.target = some (.file number) ∧ c.Sound p p' disk number
  source : disk.occupant? c.source = none ∨
    (∃ number, disk.occupant? c.source = some (.file number) ∧ c.Sound p p' disk number) ∨
    p.Early ∧ p'.Early ∧ disk.occupant? c.source = c.below.occupant? c.source
  first : c.Consistent p p' disk
  second : c.Consistent p' p disk

end

variable {c : Contest} {p p' q : WritePhase} {disk disk' : Disk} {number : Nat}

theorem Sound.symm (h : c.Sound p p' disk number) : c.Sound p' p disk number :=
  ⟨h.inPlay, h.contents.imp_right fun ⟨hempty, hwrites⟩ => ⟨hempty, hwrites.symm⟩⟩

theorem Sound.swap (h : c.Sound p p' disk number) : c.swap.Sound p p' disk number :=
  ⟨h.inPlay, h.contents.imp_left Mixed.symm⟩

/-- A move that is no write keeps a file sound if it keeps the contents. -/
theorem Sound.move (h : c.Sound p p' disk number) (hp : p ≠ .write number)
    (hcontents : disk'.bytesOf number = disk.bytesOf number) : c.Sound q p' disk' number := by
  refine ⟨h.inPlay, ?_⟩
  rw [hcontents]
  exact h.contents.imp_right fun ⟨hempty, hwrites⟩ => ⟨hempty, .inr (hwrites.resolve_left hp)⟩

theorem Consistent.swap (h : c.Consistent p p' disk) : c.swap.Consistent p p' disk where
  writes number hp := (h.writes number hp).swap
  holds := h.holds
  failed := h.failed
  renamed hp :=
    let ⟨number, htarget, hsound⟩ := h.renamed hp
    ⟨number, htarget, hsound.swap⟩

/-- Neither writer is distinguished. -/
theorem Inv.swap (h : c.Inv p p' disk) : c.swap.Inv p' p disk where
  ready := h.ready
  numbered := h.numbered
  sole := h.sole
  nextNumber := h.nextNumber
  untouched := h.untouched
  target := h.target.imp_right fun ⟨number, htarget, hsound⟩ => ⟨number, htarget, hsound.symm.swap⟩
  source := h.source.imp_right fun hsource => hsource.imp
    (fun ⟨number, hfile, hsound⟩ => ⟨number, hfile, hsound.symm.swap⟩)
    fun ⟨hp, hp', hfile⟩ => ⟨hp', hp, hfile⟩
  first := h.second.swap
  second := h.first.swap

/-- The invariant holds when the directories are there and nobody has come to the temporary file. -/
theorem inv_of_early (hready : c.below.Ready c.path c.temporary c.target c.source)
    (hbelow : c.below.Numbered) (hsole : c.below.Sole c.source) (hp : p.Early) (hp' : p'.Early) :
    c.Inv p p' c.below := by
  have hconsistent : ∀ {p p' : WritePhase}, p.Early → c.Consistent p p' c.below := by
    intro p p' hp
    cases p with
    | makeParents | create => exact ⟨nofun, False.elim, False.elim, nofun⟩
    | _ => exact hp.elim
  exact ⟨hready, hbelow, hsole, Nat.le_refl _, fun _ _ => rfl, .inl rfl,
    .inr (.inr ⟨hp, hp', rfl⟩), hconsistent hp, hconsistent hp'⟩

/-! ## One move -/

/-- A change of phase that the disk and the other writer do not notice. -/
structure Quiet (p q : WritePhase) : Prop where
  before : ∀ number, p ≠ .write number
  after : ∀ number, q ≠ .write number
  holding : q.Holding → p.Holding
  early : p.Early → q.Early
  failed : q.Failed → p.Failed
  done : q = .done (.ok ()) ↔ p = .done (.ok ())

/-- Flushing and syncing change nothing that the invariant speaks of. -/
theorem Inv.quiet (h : c.Inv p p' disk) (hquiet : Quiet p q) : c.Inv q p' disk := by
  have hsound : ∀ {number}, c.Sound p p' disk number → c.Sound q p' disk number :=
    fun hnumber => hnumber.move (hquiet.before _) rfl
  exact
    { ready := h.ready
      numbered := h.numbered
      sole := h.sole
      nextNumber := h.nextNumber
      untouched := h.untouched
      target := h.target.imp_right fun ⟨number, hfile, hnumber⟩ => ⟨number, hfile, hsound hnumber⟩
      source := h.source.imp_right fun hsource => hsource.imp
        (fun ⟨number, hfile, hnumber⟩ => ⟨number, hfile, hsound hnumber⟩)
        fun ⟨hp, hp', hfile⟩ => ⟨hquiet.early hp, hp', hfile⟩
      first :=
        { writes := fun number hq => absurd hq (hquiet.after number)
          holds := fun hq => h.first.holds (hquiet.holding hq)
          failed := fun hq => h.first.failed (hquiet.failed hq)
          renamed := fun hq =>
            let ⟨number, hfile, hnumber⟩ := h.first.renamed (hquiet.done.mp hq)
            ⟨number, hfile, hsound hnumber⟩ }
      second :=
        { writes := fun number hp' => (hsound (h.second.writes number hp').symm).symm
          holds := fun hp' => (h.second.holds hp').imp_right hquiet.done.mpr
          failed := fun hp' => (h.second.failed hp').imp_right hquiet.done.mpr
          renamed := fun hp' =>
            let ⟨number, hfile, hnumber⟩ := h.second.renamed hp'
            ⟨number, hfile, (hsound hnumber.symm).symm⟩ } }

/-- A writer creates the temporary file, or empties the one that is there. -/
theorem Inv.create (h : c.Inv .create p' disk) (hopened : disk.Opened disk' c.source number) :
    c.Inv (.write number) p' disk' := by
  have hinPlay : c.InPlay number := by
    rcases hopened.number with ⟨hfile, -⟩ | ⟨-, hnumber, -⟩
    · rcases h.source with hnone | ⟨other, hother, hsound⟩ | ⟨-, -, hbelow⟩
      · rw [hnone] at hfile
        cases hfile
      · rw [hother] at hfile
        cases hfile
        exact hsound.inPlay
      · exact .inl (hbelow ▸ hfile)
    · exact .inr (hnumber ▸ h.nextNumber)
  have hcreated : c.Sound (.write number) p' disk' number :=
    ⟨hinPlay, .inr ⟨by rw [hopened.contents, if_pos rfl], .inl rfl⟩⟩
  have hsound : ∀ {other}, c.Sound .create p' disk other → c.Sound (.write number) p' disk' other := by
    intro other hother
    by_cases hsame : other = number
    · rwa [hsame]
    · exact hother.move nofun (by rw [hopened.contents, if_neg hsame])
  have htarget : disk'.occupant? c.target = disk.occupant? c.target := by
    rw [hopened.occupant, if_neg h.ready.ne]
  exact
    { ready := h.ready.keeps hopened.sameDirectories
      numbered := hopened.numbered h.numbered
      sole := hopened.sole h.numbered h.sole h.sole
      nextNumber := Nat.le_trans h.nextNumber hopened.nextNumber_le
      untouched := fun other hother => by
        have hne : other ≠ number := fun hsame => hother (hsame ▸ hinPlay)
        rw [hopened.contents, if_neg hne, h.untouched other hother]
      target := by
        rw [htarget]
        exact h.target.imp_right fun ⟨other, hfile, hother⟩ => ⟨other, hfile, hsound hother⟩
      source := .inr (.inl ⟨number, hopened.here, hcreated⟩)
      first :=
        { writes := fun other hq => by
            cases hq
            exact hcreated
          holds := fun _ => .inl (by simp [hopened.here])
          failed := False.elim
          renamed := nofun }
      second :=
        { writes := fun other hp' => (hsound (h.second.writes other hp').symm).symm
          holds := fun _ => .inl (by simp [hopened.here])
          failed := fun hp' => absurd (h.second.failed hp').2 nofun
          renamed := fun hp' => by
            obtain ⟨other, hfile, hother⟩ := h.second.renamed hp'
            exact ⟨other, htarget.trans hfile, (hsound hother.symm).symm⟩ } }

/-- A writer writes its bytes over what the file holds. -/
theorem Inv.write (h : c.Inv (.write number) p' disk) :
    c.Inv .flush p' (disk.write number c.b) := by
  have hown := h.first.writes number rfl
  have hsound : ∀ {other}, c.Sound (.write number) p' disk other →
      c.Sound .flush p' (disk.write number c.b) other := by
    intro other hother
    by_cases hsame : other = number
    · subst hsame
      refine ⟨hother.inPlay, .inl ?_⟩
      rw [Disk.bytesOf_write_self]
      exact mixed_overlay (hother.contents.imp_right And.left)
    · refine hother.move ?_ (Disk.bytesOf_write_other disk c.b hsame)
      simpa using fun heq => hsame heq.symm
  exact
    { ready := h.ready.keeps (disk.sameDirectories_write number c.b)
      numbered := h.numbered
      sole := h.sole
      nextNumber := h.nextNumber
      untouched := fun other hother => by
        have hne : other ≠ number := fun hsame => hother (hsame ▸ hown.inPlay)
        rw [Disk.bytesOf_write_other disk c.b hne, h.untouched other hother]
      target := h.target.imp_right fun ⟨other, hfile, hother⟩ => ⟨other, hfile, hsound hother⟩
      source := h.source.imp_right fun hsource => hsource.imp
        (fun ⟨other, hfile, hother⟩ => ⟨other, hfile, hsound hother⟩) fun ⟨hp, _⟩ => hp.elim
      first :=
        { writes := nofun
          holds := fun _ => h.first.holds trivial
          failed := False.elim
          renamed := nofun }
      second :=
        { writes := fun other hp' => (hsound (h.second.writes other hp').symm).symm
          holds := fun hp' => .inl ((h.second.holds hp').resolve_right nofun)
          failed := fun hp' => absurd (h.second.failed hp').2 nofun
          renamed := fun hp' =>
            let ⟨other, hfile, hother⟩ := h.second.renamed hp'
            ⟨other, hfile, (hsound hother.symm).symm⟩ } }

/-- A writer shows the temporary file under the path. -/
theorem Inv.rename (h : c.Inv .rename p' disk)
    (hmoved : disk.Moved disk' c.source c.target number) : c.Inv (.done (.ok ())) p' disk' := by
  have hsound : ∀ {other}, c.Sound .rename p' disk other → c.Sound (.done (.ok ())) p' disk' other :=
    fun hother => hother.move nofun (hmoved.bytesOf _)
  have hnumber : c.Sound .rename p' disk number := by
    rcases h.source with hnone | ⟨other, hother, hnumber⟩ | ⟨hp, -⟩
    · rw [hmoved.source] at hnone
      cases hnone
    · rw [hmoved.source] at hother
      cases hother
      exact hnumber
    · exact hp.elim
  have htarget : disk'.occupant? c.target = some (.file number) := by
    rw [hmoved.occupant, if_pos rfl]
  have hsource : disk'.occupant? c.source = none := by
    rw [hmoved.occupant, if_neg h.ready.ne.symm, if_pos rfl]
  exact
    { ready := h.ready.keeps hmoved.sameDirectories
      numbered := hmoved.numbered h.numbered
      sole := hmoved.sole h.sole h.sole
      nextNumber := by rw [hmoved.nextNumber]; exact h.nextNumber
      untouched := fun other hother => by rw [hmoved.bytesOf, h.untouched other hother]
      target := .inr ⟨number, htarget, hsound hnumber⟩
      source := .inl hsource
      first :=
        { writes := nofun
          holds := False.elim
          failed := False.elim
          renamed := fun _ => ⟨number, htarget, hsound hnumber⟩ }
      second :=
        { writes := fun other hp' => (hsound (h.second.writes other hp').symm).symm
          holds := fun _ => .inr rfl
          failed := fun _ => ⟨hsource, rfl⟩
          renamed := fun _ => ⟨number, htarget, (hsound hnumber).symm⟩ } }

/-- A writer whose temporary file has gone fails, and then the other one has renamed it. -/
theorem Inv.renameFails (h : c.Inv .rename p' disk) (hnone : disk.occupant? c.source = none)
    (fault : FileFault) : c.Inv (.cleanUp fault) p' disk := by
  have hsound : ∀ {other}, c.Sound .rename p' disk other → c.Sound (.cleanUp fault) p' disk other :=
    fun hother => hother.move nofun rfl
  exact
    { ready := h.ready
      numbered := h.numbered
      sole := h.sole
      nextNumber := h.nextNumber
      untouched := h.untouched
      target := h.target.imp_right fun ⟨other, hfile, hother⟩ => ⟨other, hfile, hsound hother⟩
      source := .inl hnone
      first :=
        { writes := nofun
          holds := False.elim
          failed := fun _ => ⟨hnone, (h.first.holds trivial).resolve_left (absurd hnone)⟩
          renamed := nofun }
      second :=
        { writes := fun other hp' => (hsound (h.second.writes other hp').symm).symm
          holds := fun hp' => absurd (h.second.holds hp') (by simp [hnone])
          failed := fun hp' => absurd (h.second.failed hp').2 nofun
          renamed := fun hp' =>
            let ⟨other, hfile, hother⟩ := h.second.renamed hp'
            ⟨other, hfile, (hsound hother.symm).symm⟩ } }

/-- A move of the first writer keeps the invariant. -/
theorem Inv.step (h : c.Inv p p' disk) :
    ∃ q disk', (Writer.mk c.path c.temporary c.b p).step none disk =
      (⟨c.path, c.temporary, c.b, q⟩, disk') ∧ c.Inv q p' disk' := by
  cases p with
  | makeParents =>
    refine ⟨.create, disk, ?_, h.quiet
      ⟨by simp, by simp, False.elim, fun _ => trivial, False.elim, by simp⟩⟩
    rw [Writer.step_makeParents, h.ready.makeDirectories]
  | create =>
    obtain ⟨number, disk', hcreate, hopened⟩ :=
      Disk.exists_create h.ready.locate_source h.ready.source_free
    refine ⟨.write number, disk', ?_, h.create hopened⟩
    rw [Writer.step_create, hcreate]
  | write number => exact ⟨.flush, _, rfl, h.write⟩
  | flush =>
    exact ⟨.sync, disk, rfl, h.quiet ⟨by simp, by simp, id, False.elim, False.elim, by simp⟩⟩
  | sync =>
    exact ⟨.rename, disk, rfl, h.quiet ⟨by simp, by simp, id, False.elim, False.elim, by simp⟩⟩
  | rename =>
    cases hsource : disk.occupant? c.source with
    | none =>
      have hrename : disk.rename c.temporary c.path = .error .notFound := by
        simp [Disk.rename, Disk.lookUp, h.ready.locate_source, hsource]
      refine ⟨.cleanUp .notFound, disk, ?_, h.renameFails hsource _⟩
      rw [Writer.step_rename, hrename]
    | some entry =>
      cases entry with
      | directory => exact absurd hsource h.ready.source_free
      | file number =>
        obtain ⟨disk', hrename, hmoved⟩ := Disk.exists_rename h.ready.locate_source
          h.ready.locate_target hsource h.ready.target_free (h.sole.ne_file hsource h.ready.ne)
        refine ⟨.done (.ok ()), disk', ?_, h.rename hmoved⟩
        rw [Writer.step_rename, hrename]
  | cleanUp fault =>
    obtain ⟨hsource, -⟩ := h.first.failed trivial
    have hremove : disk.remove c.temporary = .error .notFound := by
      simp [Disk.remove, Disk.lookUp, h.ready.locate_source, hsource]
    refine ⟨.done (.error fault), disk, ?_, h.quiet
      ⟨by simp, by simp, False.elim, False.elim, fun _ => trivial, by simp⟩⟩
    exact Writer.step_cleanUp_of_error _ _ _ _ hremove
  | done result => exact ⟨.done result, disk, rfl, h⟩

/-! ## What readers find -/

/-- The path holds what it held before, or what the writers have made of a file. -/
theorem Inv.fileAt?_target (h : c.Inv p p' disk) (hbelow : c.below.Numbered)
    (hsole : c.below.Sole c.source) :
    disk.fileAt? c.target = c.below.fileAt? c.target ∨
      ∃ contents, disk.fileAt? c.target = some contents ∧
        (contents = [] ∨ Mixed c.b c.b' contents) := by
  rcases h.target with hsame | ⟨number, hfile, hsound⟩
  · left
    simp only [Disk.fileAt?, hsame]
    cases hoccupant : c.below.occupant? c.target with
    | none => rfl
    | some entry =>
      cases entry with
      | directory => rfl
      | file number =>
        -- the file that stood at the path is none of those that the writers work on
        have hother : ¬ c.InPlay number := by
          rintro (hsource | hfresh)
          · exact h.ready.ne (hsole _ _ hsource hoccupant)
          · exact absurd (hbelow _ _ hoccupant) (Nat.not_lt.mpr hfresh)
        exact congrArg some (h.untouched number hother)
  · refine .inr ⟨disk.bytesOf number, Disk.fileAt?_of_occupant hfile, ?_⟩
    rcases hsound.contents with hmixed | ⟨hempty, -⟩
    · exact .inr hmixed
    · exact .inl hempty

/-- When both writers are done, one of them has succeeded and the path holds what they wrote. -/
theorem Inv.fileAt?_target_of_done {result result' : Except FileFault Unit}
    (h : c.Inv (.done result) (.done result') disk) :
    ∃ contents, disk.fileAt? c.target = some contents ∧ Mixed c.b c.b' contents := by
  have hrenamed : ∃ number, disk.occupant? c.target = some (.file number) ∧
      c.Sound (.done result) (.done result') disk number := by
    cases result with
    | ok _ => exact h.first.renamed rfl
    | error fault =>
      obtain ⟨number, hfile, hsound⟩ := h.second.renamed (h.first.failed trivial).2
      exact ⟨number, hfile, hsound.symm⟩
  obtain ⟨number, hfile, hsound⟩ := hrenamed
  refine ⟨disk.bytesOf number, Disk.fileAt?_of_occupant hfile, ?_⟩
  rcases hsound.contents with hmixed | ⟨-, hwrites⟩
  · exact hmixed
  · simp at hwrites

end Contest

namespace Race

variable {c : Contest} {disk : Disk} {suffix : String} {path : Path} {b b' : Bytes}

/-- The race has got so far that the contest's invariant holds. -/
def Runs (c : Contest) (r : Race) : Prop :=
  ∃ p p', r.first = ⟨c.path, c.temporary, c.b, p⟩ ∧ r.second = ⟨c.path, c.temporary, c.b', p'⟩ ∧
    c.Inv p p' r.disk

/-- The step lemma of the race: every move of either writer keeps the invariant. -/
theorem Runs.step {r : Race} (h : r.Runs c) (turn : Turn) : (r.step turn).Runs c := by
  obtain ⟨p, p', hfirst, hsecond, hinv⟩ := h
  cases turn with
  | first =>
    obtain ⟨q, disk', hstep, hinv'⟩ := hinv.step
    rw [← hfirst] at hstep
    simp only [Race.step, hstep]
    exact ⟨q, p', rfl, hsecond, hinv'⟩
  | second =>
    obtain ⟨q, disk', hstep, hinv'⟩ := hinv.swap.step
    have hstep : r.second.step none r.disk = (⟨c.path, c.temporary, c.b', q⟩, disk') := by
      rw [hsecond]
      exact hstep
    simp only [Race.step, hstep]
    exact ⟨p, q, hfirst, rfl, hinv'.swap⟩

/-- By induction on the schedule, the invariant holds whatever the order of the moves. -/
theorem Runs.run {r : Race} (h : r.Runs c) (schedule : List Turn) : (r.run schedule).Runs c := by
  induction schedule generalizing r with
  | nil => exact h
  | cons turn rest ih => exact ih (h.step turn)

/-! ## When the path always holds something whole -/

/-- Whatever the order of the moves, the path holds its previous contents or all the bytes of one of
the writers, and in the end the latter. -/
def Whole (suffix : String) (path : Path) (b b' : Bytes) (disk : Disk) (target : Location) : Prop :=
  ∀ schedule, let r := (start suffix path b b' disk).run schedule
    (r.disk.fileAt? target = disk.fileAt? target ∨ r.disk.fileAt? target = some b ∨
      r.disk.fileAt? target = some b') ∧
    (r.Ended → r.disk.fileAt? target = some b ∨ r.disk.fileAt? target = some b')

def Turn.other : Turn → Turn
  | first => second
  | second => first

def swap (r : Race) : Race := ⟨r.second, r.first, r.disk⟩

/-- Neither writer is the first one by right. -/
theorem run_swap (r : Race) (schedule : List Turn) :
    r.swap.run (schedule.map Turn.other) = (r.run schedule).swap := by
  induction schedule generalizing r with
  | nil => rfl
  | cons turn rest ih =>
    have hstep : r.swap.step turn.other = (r.step turn).swap := by cases turn <;> rfl
    rw [List.map_cons, run, List.foldl_cons, hstep]
    exact ih (r.step turn)

theorem Whole.symm {target : Location} (h : Whole suffix path b b' disk target) :
    Whole suffix path b' b disk target := by
  intro schedule
  have hrun : (start suffix path b' b disk).run schedule =
      ((start suffix path b b' disk).run (schedule.map Turn.other)).swap := by
    have hother : (schedule.map Turn.other).map Turn.other = schedule := by
      rw [List.map_map]
      exact List.map_id'' (fun turn => by cases turn <;> rfl) schedule
    rw [← run_swap, hother]
    rfl
  obtain ⟨halways, hended⟩ := h (schedule.map Turn.other)
  rw [hrun]
  exact ⟨halways.imp_right Or.symm, fun hboth => (hended hboth.symm).symm⟩

section
variable {below : Disk} {target source : Location}

/-- A path that can be written leads to its target once the directories above it are made. -/
theorem exists_ready (hsuffix : suffix ≠ "") (hdisk : disk.Numbered)
    (hunshared : disk.Unshared (path.sibling suffix)) {bytes : Bytes} {after : Disk}
    (hwrite : disk.writeAtomic suffix path bytes = (.ok (), after))
    (htarget : after.locate path = .ok (.name target false)) :
    ∃ below source, disk.makeDirectories path.parent = (.ok (), below) ∧
      disk.AddsDirectories below ∧ below.Ready path (path.sibling suffix) target source ∧
      below.Numbered ∧ below.Sole source := by
  obtain ⟨below, place, source, hparents, hadds, hready⟩ := Disk.ready_of_writeAtomic hsuffix hwrite
  have hbelow := hadds.numbered hdisk
  have hsole := (hadds.unshared hunshared).sole hready.locate_source
  obtain ⟨after', hwrite', hreplaced⟩ := hready.exists_writeAtomic hbelow hsole bytes
  have hsame : after = after' :=
    congrArg Prod.snd (((Disk.writeAtomic_of_makeDirectories hparents
      hready.makeDirectories).mp hwrite).symm.trans hwrite')
  rw [hsame, hreplaced.sameDirectories.1.locate hready.locate_target] at htarget
  cases htarget
  exact ⟨below, source, hparents, hadds, hready, hbelow, hsole⟩

section Readied

variable (hparents : disk.makeDirectories path.parent = (.ok (), below))
  (hready : below.Ready path (path.sibling suffix) target source) (hbelow : below.Numbered)
  (hsole : below.Sole source)
include hparents hready hbelow hsole

/-- One writer empties the file that the other has written and synced and is about to rename. -/
theorem exists_torn (b b' : Bytes) :
    ∃ schedule, ((start suffix path b b' disk).run schedule).disk.fileAt? target = some [] := by
  obtain ⟨number, opened, hcreate, hopened⟩ :=
    Disk.exists_create hready.locate_source hready.source_free
  have hwritten := (hready.keeps hopened.sameDirectories).keeps (Disk.sameDirectories_write _ number b)
  obtain ⟨number', emptied, hcreate', hopened'⟩ :=
    Disk.exists_create hwritten.locate_source hwritten.source_free
  have hemptied := hwritten.keeps hopened'.sameDirectories
  have hnumbered : (opened.write number b).Numbered := hopened.numbered hbelow
  have hsole' : (opened.write number b).Sole source := hopened.sole hbelow hsole hsole
  obtain ⟨moved, hrename, hmoved⟩ := Disk.exists_rename hemptied.locate_source
    hemptied.locate_target hopened'.here hemptied.target_free
    ((hopened'.sole hnumbered hsole' hsole').ne_file hopened'.here hready.ne)
  refine ⟨[.first, .first, .first, .first, .first, .second, .second, .first], ?_⟩
  have hrun : ((start suffix path b b' disk).run
      [.first, .first, .first, .first, .first, .second, .second, .first]).disk = moved := by
    simp only [run, List.foldl_cons, List.foldl_nil, step, start, Writer.start,
      Writer.step_makeParents, hparents, Writer.step_create, hcreate, Writer.step_write,
      Writer.step_flush, Writer.step_sync, hwritten.makeDirectories, hcreate', Writer.step_rename,
      hrename]
  rw [hrun, Disk.fileAt?_of_occupant (by rw [hmoved.occupant, if_pos rfl]), hmoved.bytesOf,
    hopened'.contents, if_pos rfl]

/-- Both writers create the temporary file before either writes to it. -/
theorem exists_overlay (b b' : Bytes) :
    ∃ schedule, let r := (start suffix path b b' disk).run schedule
      r.Ended ∧ r.disk.fileAt? target = some (overlay b b') := by
  obtain ⟨number, opened, hcreate, hopened⟩ :=
    Disk.exists_create hready.locate_source hready.source_free
  have hfirst := hready.keeps hopened.sameDirectories
  obtain ⟨number', emptied, hcreate', hopened'⟩ :=
    Disk.exists_create hfirst.locate_source hfirst.source_free
  -- the temporary file is there already, so that both writers have the same one
  obtain rfl : number = number' := by
    rcases hopened'.number with ⟨hfile, -⟩ | ⟨hnone, -⟩
    · rw [hopened.here] at hfile
      cases hfile
      rfl
    · rw [hopened.here] at hnone
      cases hnone
  have hwritten := ((hfirst.keeps hopened'.sameDirectories).keeps
    (Disk.sameDirectories_write _ number b')).keeps (Disk.sameDirectories_write _ number b)
  have hsole' : opened.Sole source := hopened.sole hbelow hsole hsole
  obtain ⟨moved, hrename, hmoved⟩ := Disk.exists_rename hwritten.locate_source
    hwritten.locate_target hopened'.here hwritten.target_free
    ((hopened'.sole (hopened.numbered hbelow) hsole' hsole').ne_file hopened'.here hready.ne)
  have hgone : moved.lookUp (path.sibling suffix) = .error .notFound := by
    have hnone : moved.occupant? source = none := by
      rw [hmoved.occupant, if_neg hready.ne.symm, if_pos rfl]
    simp only [Disk.lookUp, (hwritten.keeps hmoved.sameDirectories).locate_source, hnone]
  have hrenameFails : moved.rename (path.sibling suffix) path = .error .notFound := by
    simp only [Disk.rename, hgone]
  have hremoveFails : moved.remove (path.sibling suffix) = .error .notFound := by
    simp only [Disk.remove, hgone]
  refine ⟨[.first, .second, .first, .second, .second, .first, .first, .first, .first, .second,
    .second, .second, .second], ?_⟩
  have hrun : (start suffix path b b' disk).run [.first, .second, .first, .second, .second, .first,
      .first, .first, .first, .second, .second, .second, .second] =
      ⟨⟨path, path.sibling suffix, b, .done (.ok ())⟩,
        ⟨path, path.sibling suffix, b', .done (.error .notFound)⟩, moved⟩ := by
    simp only [run, List.foldl_cons, List.foldl_nil, step, start, Writer.start,
      Writer.step_makeParents, hparents, hready.makeDirectories, Writer.step_create, hcreate,
      hcreate', Writer.step_write, Writer.step_flush, Writer.step_sync, Writer.step_rename, hrename,
      hrenameFails, Writer.step_cleanUp_of_error _ _ _ _ hremoveFails]
  refine ⟨by simp [hrun, Ended, Writer.result?], ?_⟩
  rw [hrun, Disk.fileAt?_of_occupant (by rw [hmoved.occupant, if_pos rfl]), hmoved.bytesOf,
    Disk.bytesOf_write_self, Disk.bytesOf_write_self, hopened'.contents, if_pos rfl]
  exact congrArg some (congrArg (overlay b) (overlay_nil b'))

/-- An empty file shows at some moment, so it has to pass for whole. -/
theorem empty_of_whole (hwhole : Whole suffix path b b' disk target) :
    b = [] ∨ b' = [] ∨ disk.fileAt? target = some [] := by
  obtain ⟨schedule, htorn⟩ := exists_torn hparents hready hbelow hsole b b'
  rcases (hwhole schedule).1 with hshown | hshown | hshown
  · exact .inr (.inr (hshown.symm.trans htorn))
  · exact .inl (Option.some.inj (hshown.symm.trans htorn))
  · exact .inr (.inl (Option.some.inj (hshown.symm.trans htorn)))

/-- Either writer can leave its bytes over those of the other one. -/
theorem overlay_of_whole (hwhole : Whole suffix path b b' disk target) :
    overlay b b' = b ∨ overlay b b' = b' := by
  obtain ⟨schedule, hended, hshown⟩ := exists_overlay hparents hready hbelow hsole b b'
  have hwhole' := (hwhole schedule).2 hended
  rwa [hshown, Option.some.injEq, Option.some.injEq] at hwhole'

/-- Whoever moves first makes the directories, and from there on the invariant holds. -/
theorem runs_cons (b b' : Bytes) (turn : Turn) (rest : List Turn) :
    ((start suffix path b b' disk).run (turn :: rest)).Runs
      ⟨path, path.sibling suffix, target, source, b, b', below⟩ := by
  refine Runs.run ?_ rest
  cases turn with
  | first =>
    refine ⟨.create, .makeParents, ?_, rfl, ?_⟩
    · simp only [step, start, Writer.start, Writer.step_makeParents, hparents]
    · simp only [step, start, Writer.start, Writer.step_makeParents, hparents]
      exact Contest.inv_of_early hready hbelow hsole trivial trivial
  | second =>
    refine ⟨.makeParents, .create, rfl, ?_, ?_⟩
    · simp only [step, start, Writer.start, Writer.step_makeParents, hparents]
    · simp only [step, start, Writer.start, Writer.step_makeParents, hparents]
      exact Contest.inv_of_early hready hbelow hsole trivial trivial

end Readied

/-- What the path holds during a race is what it held, nothing, or a mixture. -/
theorem Runs.shows {r : Race} (h : r.Runs c) (hbelow : c.below.Numbered)
    (hsole : c.below.Sole c.source) :
    r.disk.fileAt? c.target = c.below.fileAt? c.target ∨
      ∃ contents, r.disk.fileAt? c.target = some contents ∧
        (contents = [] ∨ Mixed c.b c.b' contents) := by
  obtain ⟨p, p', -, -, hinv⟩ := h
  exact hinv.fileAt?_target hbelow hsole

/-- What the path holds after a race is a mixture. -/
theorem Runs.shows_of_ended {r : Race} (h : r.Runs c) (hended : r.Ended) :
    ∃ contents, r.disk.fileAt? c.target = some contents ∧ Mixed c.b c.b' contents := by
  obtain ⟨p, p', hfirst, hsecond, hinv⟩ := h
  obtain ⟨result, rfl⟩ := WritePhase.exists_done (hfirst ▸ hended.1)
  obtain ⟨result', rfl⟩ := WritePhase.exists_done (hsecond ▸ hended.2)
  exact hinv.fileAt?_target_of_done

/-- Two writers never expose anything but whole contents exactly if an empty file would pass for
whole and neither writer leaves a trace under the other: one of them writes nothing or the path was
empty before, and what they write has the same length or continues one another. -/
theorem whole_iff (hsuffix : suffix ≠ "") (hdisk : disk.Numbered)
    (hunshared : disk.Unshared (path.sibling suffix)) {bytes : Bytes} {after : Disk}
    (hwrite : disk.writeAtomic suffix path bytes = (.ok (), after))
    (htarget : after.locate path = .ok (.name target false)) (b b' : Bytes) :
    Whole suffix path b b' disk target ↔
      (b = [] ∨ b' = [] ∨ disk.fileAt? target = some []) ∧
        (b.length = b'.length ∨ b <+: b' ∨ b' <+: b) := by
  obtain ⟨below, source, hparents, hadds, hready, hbelow, hsole⟩ :=
    exists_ready hsuffix hdisk hunshared hwrite htarget
  constructor
  · intro hwhole
    refine ⟨empty_of_whole hparents hready hbelow hsole hwhole,
      mixed_whole_iff.mp fun contents hmixed => ?_⟩
    rcases hmixed with rfl | rfl | rfl | rfl
    · exact .inl rfl
    · exact .inr rfl
    · exact overlay_of_whole hparents hready hbelow hsole hwhole
    · exact (overlay_of_whole hparents hready hbelow hsole hwhole.symm).symm
  · rintro ⟨hempty, hmixed⟩ schedule
    have hwhole : ∀ {found : Option Bytes} {contents : Bytes}, Mixed b b' contents →
        found = some contents → found = some b ∨ found = some b' := by
      intro found contents hcontents hfound
      rw [hfound, Option.some.injEq, Option.some.injEq]
      exact mixed_whole_iff.mpr hmixed contents hcontents
    cases schedule with
    | nil =>
      refine ⟨.inl rfl, fun hended => ?_⟩
      simp [run, Ended, start, Writer.start, Writer.result?] at hended
    | cons turn rest =>
      have hruns := runs_cons hparents hready hbelow hsole b b' turn rest
      constructor
      · rcases hruns.shows hbelow hsole with hsame | ⟨contents, hshown, rfl | hcontents⟩
        · exact .inl (hsame.trans (hadds.fileAt? target))
        · rcases hempty with rfl | rfl | hempty
          · exact .inr (.inl hshown)
          · exact .inr (.inr hshown)
          · exact .inl (hshown.trans hempty.symm)
        · exact .inr (hwhole hcontents hshown)
      · intro hended
        obtain ⟨contents, hshown, hcontents⟩ := hruns.shows_of_ended hended
        exact hwhole hcontents hshown

theorem whole_iff_dataFile : Whole ".tmp-7" (.ofString "data.bin") [] [5] .empty ["data.bin"] := by
  let written := (Disk.empty.writeAtomic ".tmp-7" (.ofString "data.bin") [0]).2
  have hwrite : Disk.empty.writeAtomic ".tmp-7" (.ofString "data.bin") [0] = (.ok (), written) := rfl
  have htarget : written.locate (.ofString "data.bin") = .ok (.name ["data.bin"] false) := rfl
  refine (whole_iff (by decide) Disk.numbered_empty (Disk.unshared_empty _) hwrite htarget
    [] [5]).mpr ⟨.inl rfl, ?_⟩
  exact .inr (.inl List.nil_prefix)

/-- Here a file of one byte is replaced by two writers. The first syncs its file, the second empties
it, and when the first renames it, the path has lost all contents. -/
theorem not_whole_dataFile :
    ¬ Whole ".tmp-7" (.ofString "data.bin") [1] [2]
      (Disk.empty.writeAtomic ".tmp-7" (.ofString "data.bin") [9]).2 ["data.bin"] := by
  intro h
  have htorn := (h [.first, .first, .first, .first, .first, .second, .second, .first]).1
  revert htorn
  decide +kernel

end

end Race

end CircuitProof
