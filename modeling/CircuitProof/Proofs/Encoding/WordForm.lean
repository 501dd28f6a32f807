import CircuitProof.Encoding.WordForm

/-!
# One word form for each value

A value has a word form that reads back exactly if its points are members of their groups and its
counts, columns and widths fit in the bytes they are written in. Reading takes such a form off the
front of a byte string, whatever follows, and takes nothing else; so two byte strings never stand for
one value.
-/

namespace CircuitProof

namespace Reader

variable {ε α β : Type}

/-- The reader takes exactly the forms of valid values, each with whatever follows it. -/
def Reads (r : Reader ε α) (write : α → Bytes) (valid : α → Prop) : Prop :=
  ∀ bytes v rest, r bytes = .ok (v, rest) ↔ valid v ∧ bytes = write v ++ rest

/-- What comes after a form is read by what comes after its reader. -/
theorem Reads.bind_eq_ok_iff {r : Reader ε α} {write : α → Bytes} {valid : α → Prop}
    (h : r.Reads write valid) {f : α → Reader ε β} {bytes rest : Bytes} {b : β} :
    (r >>= f) bytes = .ok (b, rest) ↔
      ∃ a mid, (valid a ∧ bytes = write a ++ mid) ∧ f a mid = .ok (b, rest) := by
  rw [Reader.bind_eq_ok_iff]
  simp only [h _ _ _]

/-! A record is read field by field. What has been read so far is `known` of the record that is being
read, and the last reader makes the one record of which all that is known. -/

/-- Reads one field of a record, and what is known of the record afterwards comes after it. -/
theorem Reads.field {r : Reader ε α} {write : α → Bytes} {valid : α → Prop}
    (h : r.Reads write valid) (get : β → α) {f : α → Reader ε β} {known later : β → Prop}
    {form : β → Bytes} (hf : ∀ a, (f a).Reads form fun v => (known v ∧ get v = a) ∧ later v) :
    (r >>= f).Reads (fun v => write (get v) ++ form v)
      fun v => known v ∧ valid (get v) ∧ later v := by
  intro bytes v rest
  simp only [h.bind_eq_ok_iff, hf _ _ _ _]
  constructor
  · rintro ⟨_, _, ⟨hvalid, rfl⟩, ⟨⟨hknown, rfl⟩, hlater⟩, rfl⟩
    exact ⟨⟨hknown, hvalid, hlater⟩, (List.append_assoc ..).symm⟩
  · rintro ⟨⟨hknown, hvalid, hlater⟩, rfl⟩
    exact ⟨get v, form v ++ rest, ⟨hvalid, List.append_assoc ..⟩, ⟨⟨hknown, rfl⟩, hlater⟩, rfl⟩

/-- The last reader reads nothing more: all fields of the record are known. -/
theorem Reads.complete {record : β} {known : β → Prop} (h : ∀ v, known v ↔ v = record) :
    (pure record : Reader ε β).Reads (fun _ => []) fun v => known v ∧ True := by
  intro bytes v rest
  rw [pure_eq_ok_iff]
  simp only [h, and_true, List.nil_append, @eq_comm _ record]

/-- A record whose fields are read in order, with nothing known in front of the first. -/
theorem Reads.record {r : Reader ε β} {form write : β → Bytes} {fields valid : β → Prop}
    (h : r.Reads form fun v => True ∧ fields v) (hwrite : ∀ v, form v = write v)
    (hvalid : ∀ v, fields v ↔ valid v) : r.Reads write valid := by
  intro bytes v rest
  simp only [h _ _ _, hwrite, hvalid, true_and]

/-- Items are read one after the other, as many as are asked for. -/
theorem Reads.times {r : Reader ε α} {write : α → Bytes} {valid : α → Prop}
    (h : r.Reads write valid) (n : Nat) :
    (r.times n).Reads (List.flatMap write) fun items => items.length = n ∧ ∀ x ∈ items, valid x := by
  induction n with
  | zero =>
    intro bytes items rest
    rw [Reader.times, pure_eq_ok_iff]
    constructor
    · rintro ⟨rfl, rfl⟩
      exact ⟨⟨rfl, by simp⟩, rfl⟩
    · rintro ⟨⟨hlength, -⟩, rfl⟩
      obtain rfl := List.length_eq_zero_iff.mp hlength
      exact ⟨rfl, rfl⟩
  | succ n ih =>
    intro bytes items rest
    simp only [Reader.times, h.bind_eq_ok_iff, ih.bind_eq_ok_iff, pure_eq_ok_iff]
    constructor
    · rintro ⟨x, _, ⟨hx, rfl⟩, xs, _, ⟨⟨rfl, hxs⟩, rfl⟩, rfl, rfl⟩
      refine ⟨⟨rfl, ?_⟩, by simp⟩
      intro y hy
      rcases List.mem_cons.mp hy with rfl | hy
      · exact hx
      · exact hxs y hy
    · rintro ⟨⟨hlength, hitems⟩, rfl⟩
      cases items with
      | nil => cases hlength
      | cons x xs =>
        exact ⟨x, _, ⟨hitems x (by simp), by simp only [List.flatMap_cons, List.append_assoc]⟩, xs,
          _, ⟨⟨Nat.succ.inj hlength, fun y hy => hitems y (by simp [hy])⟩, rfl⟩, rfl, rfl⟩

end Reader

/-- What a stored value is made of: points, which may be members of their groups or not, and numbers,
which may fit in four bytes or not. -/
class Storable (α : Type) where
  /-- Every point is a member of its group. -/
  Members : α → Prop
  /-- Every length, column, width and number of statement columns is below `2 ^ 32`. -/
  CountsFit : α → Prop

namespace Storable

def countLimit : Nat := Nat.pow 2 32

variable {α : Type}

def Valid [Storable α] (v : α) : Prop := Members v ∧ CountsFit v

/-- Residues are nothing but numbers below their modulus. -/
instance {p : Nat} : Storable (Residue p) where
  Members _ := True
  CountsFit _ := True

instance : Storable Base2 where
  Members _ := True
  CountsFit _ := True

instance : Storable G1 where
  Members p := G1.isMember p = true
  CountsFit _ := True

instance : Storable G2 where
  Members p := G2.isMember p = true
  CountsFit _ := True

instance [Storable α] : Storable (List α) where
  Members items := ∀ x ∈ items, Members x
  CountsFit items := items.length < countLimit ∧ ∀ x ∈ items, CountsFit x

instance [Storable α] : Storable (Nat × α) where
  Members term := Members term.2
  CountsFit term := term.1 < countLimit ∧ CountsFit term.2

instance [Storable α] : Storable (Matrix α) where
  Members m := Members m.rows
  CountsFit m := m.width < countLimit ∧ CountsFit m.rows

instance [Storable α] : Storable (QuadraticProgram α) where
  Members p := Members p.a ∧ Members p.b ∧ Members p.c
  CountsFit p := p.numStatement < countLimit ∧ CountsFit p.a ∧ CountsFit p.b ∧ CountsFit p.c

variable {G₁ G₂ : Type} [Storable G₁] [Storable G₂]

instance : Storable (Proof G₁ G₂) where
  Members proof := Members proof.a ∧ Members proof.b ∧ Members proof.c
  CountsFit proof := CountsFit proof.a ∧ CountsFit proof.b ∧ CountsFit proof.c

instance : Storable (VerifyingKey G₁ G₂) where
  Members vk :=
    Members vk.alpha ∧ Members vk.beta ∧ Members vk.gamma ∧ Members vk.delta ∧ Members vk.statement
  CountsFit vk :=
    CountsFit vk.alpha ∧ CountsFit vk.beta ∧ CountsFit vk.gamma ∧ CountsFit vk.delta ∧
      CountsFit vk.statement

instance [Storable α] : Storable (ProvingKey α G₁ G₂) where
  Members pk :=
    Members pk.verifying ∧ Members pk.beta₁ ∧ Members pk.delta₁ ∧ Members pk.aQuery ∧
      Members pk.bQuery₁ ∧ Members pk.bQuery₂ ∧ Members pk.hQuery ∧ Members pk.lQuery ∧
      Members pk.program
  CountsFit pk :=
    CountsFit pk.verifying ∧ CountsFit pk.beta₁ ∧ CountsFit pk.delta₁ ∧ CountsFit pk.aQuery ∧
      CountsFit pk.bQuery₁ ∧ CountsFit pk.bQuery₂ ∧ CountsFit pk.hQuery ∧ CountsFit pk.lQuery ∧
      CountsFit pk.program

end Storable

open Storable (Members CountsFit Valid countLimit)

namespace WordForm

/-- Reading takes exactly the forms of valid values. -/
class Exact (α : Type) [WordForm α] [Storable α] : Prop where
  reads : (read : ArtifactReader α).Reads write Valid

theorem read_count : readCount.Reads writeCount fun n => n < countLimit := by
  intro bytes n rest
  have hlimit : countLimit = Nat.pow 256 countWidth := rfl
  rw [readCount, Reader.bind_eq_ok_iff]
  simp only [take, Reader.take_eq_ok_iff, Reader.pure_eq_ok_iff, writeCount]
  constructor
  · rintro ⟨word, _, ⟨hlength, rfl⟩, rfl, rfl⟩
    have hlt : ofBigEndian word < countLimit := by
      rw [hlimit, ← hlength]
      exact ofBigEndian_lt word
    rw [← (ofBigEndian_eq_iff hlength (hlimit ▸ hlt)).mp rfl]
    exact ⟨hlt, rfl⟩
  · rintro ⟨hlt, rfl⟩
    have hword := (ofBigEndian_eq_iff (length_bigEndian countWidth n) (hlimit ▸ hlt)).mpr rfl
    exact ⟨_, _, ⟨length_bigEndian countWidth n, rfl⟩, hword, rfl⟩

/-- The residues of a modulus that fits in a word. -/
class WordModulus (p : Nat) : Prop where
  le : p ≤ Nat.pow 256 wordWidth

instance : WordModulus scalarModulus := ⟨by decide⟩
instance : WordModulus baseModulus := ⟨by decide⟩

instance {p : Nat} [Modulus p] [WordModulus p] : Exact (Residue p) where
  reads := by
    intro bytes a rest
    change (take wordWidth >>= fun word =>
      Reader.ofOption .nonCanonicalFieldElement (Residue.ofWord? word)) bytes = _ ↔ _
    simp only [Reader.bind_eq_ok_iff, take, Reader.take_eq_ok_iff, Reader.ofOption_eq_ok_iff]
    have hfits : a.val < Nat.pow 256 wordWidth := Nat.lt_of_lt_of_le a.lt WordModulus.le
    constructor
    · rintro ⟨word, _, ⟨hlength, rfl⟩, hword, rfl⟩
      rw [Residue.ofWord?_eq_some_iff hlength] at hword
      rw [(ofBigEndian_eq_iff hlength hfits).mp hword]
      exact ⟨⟨trivial, trivial⟩, rfl⟩
    · rintro ⟨-, rfl⟩
      have hword := (ofBigEndian_eq_iff (length_bigEndian wordWidth a.val) hfits).mpr rfl
      have hread := (Residue.ofWord?_eq_some_iff a.length_toWord).mpr hword
      exact ⟨a.toWord, rest, ⟨a.length_toWord, rfl⟩, hread, rfl⟩

variable {α : Type} [WordForm α] [Storable α] [Exact α]

theorem read_bind_eq_ok_iff {β : Type} {f : α → ArtifactReader β} {bytes rest : Bytes} {b : β} :
    (read >>= f) bytes = .ok (b, rest) ↔
      ∃ a mid, (Valid a ∧ bytes = write a ++ mid) ∧ f a mid = .ok (b, rest) :=
  Exact.reads.bind_eq_ok_iff

instance : Exact Base2 where
  reads := by
    refine .record (.field Exact.reads Base2.c1 fun c1 => .field Exact.reads Base2.c0 fun c0 =>
      .complete fun v => ?_) (fun v => ?_) fun v => ?_
    · cases v
      simp [and_comm]
    · simp only [List.append_nil]
      rfl
    · simp [Valid, Members, CountsFit]

/-! ## Points -/

section
variable {K : Type} [Zero K] [DecidableEq K] [WordForm K] [Storable K] [Exact K]

/-- The word form of a point: its coordinates, zeros for infinity. -/
def writePoint : Point K → Bytes
  | .infinity => write (0 : K) ++ write (0 : K)
  | .finite x y => write x ++ write y

/-- Where two zeros are no member, no other point has the form of infinity. -/
theorem read_point {group : String} {isMember : Point K → Bool} (hvalid : ∀ x : K, Valid x)
    (hinfinity : isMember .infinity = true) (hzero : isMember (.finite 0 0) = false) :
    Reader.Reads (do let x ← read; let y ← read; pointOf group isMember x y) writePoint
      fun p => isMember p = true := by
  intro bytes p rest
  simp only [read_bind_eq_ok_iff]
  constructor
  · rintro ⟨x, _, ⟨-, rfl⟩, y, _, ⟨-, rfl⟩, hpoint⟩
    rw [pointOf] at hpoint
    split at hpoint
    · next h =>
      obtain ⟨rfl, rfl⟩ := h
      obtain ⟨rfl, rfl⟩ := Reader.pure_eq_ok_iff.mp hpoint
      exact ⟨hinfinity, (List.append_assoc ..).symm⟩
    · split at hpoint
      · next hmember =>
        obtain ⟨rfl, rfl⟩ := Reader.pure_eq_ok_iff.mp hpoint
        exact ⟨hmember, (List.append_assoc ..).symm⟩
      · cases hpoint
  · rintro ⟨hmember, rfl⟩
    cases p with
    | infinity =>
      refine ⟨0, _, ⟨hvalid 0, List.append_assoc ..⟩, 0, rest, ⟨hvalid 0, rfl⟩, ?_⟩
      rw [pointOf, if_pos ⟨rfl, rfl⟩]
      exact Reader.pure_eq_ok_iff.mpr ⟨rfl, rfl⟩
    | finite x y =>
      refine ⟨x, _, ⟨hvalid x, List.append_assoc ..⟩, y, rest, ⟨hvalid y, rfl⟩, ?_⟩
      have hne : ¬ (x = 0 ∧ y = 0) := by
        rintro ⟨rfl, rfl⟩
        rw [hzero] at hmember
        cases hmember
      rw [pointOf, if_neg hne, if_pos hmember]
      exact Reader.pure_eq_ok_iff.mpr ⟨rfl, rfl⟩

end

instance : Exact G1 where
  reads := by
    intro bytes p rest
    have hwrite : write p = writePoint p := by cases p <;> rfl
    rw [hwrite, Valid, show CountsFit p = True from rfl, and_true]
    exact read_point (fun _ => ⟨trivial, trivial⟩) G1.isMember_infinity G1.isMember_zero bytes p rest

instance : Exact G2 where
  reads := by
    intro bytes p rest
    have hwrite : write p = writePoint p := by cases p <;> rfl
    rw [hwrite, Valid, show CountsFit p = True from rfl, and_true]
    exact read_point (fun _ => ⟨trivial, trivial⟩) G2.isMember_infinity G2.isMember_zero bytes p rest

/-! ## Lists and records -/

omit [WordForm α] [Exact α] in
/-- A list is stored behind a count of four bytes. -/
theorem valid_list_iff (items : List α) :
    Valid items ↔ items.length < countLimit ∧ ∀ x ∈ items, Valid x := by
  constructor
  · rintro ⟨hmembers, hlength, hfit⟩
    exact ⟨hlength, fun x hx => ⟨hmembers x hx, hfit x hx⟩⟩
  · rintro ⟨hlength, hitems⟩
    exact ⟨fun x hx => (hitems x hx).1, hlength, fun x hx => (hitems x hx).2⟩

instance : Exact (List α) where
  reads := by
    intro bytes items rest
    change (readCount >>= fun count => Reader.times read count) bytes = _ ↔ _
    rw [read_count.bind_eq_ok_iff, valid_list_iff]
    simp only [(Exact.reads (α := α)).times _ _ _ _]
    constructor
    · rintro ⟨_, _, ⟨hlength, rfl⟩, ⟨rfl, hitems⟩, rfl⟩
      exact ⟨⟨hlength, hitems⟩, (List.append_assoc ..).symm⟩
    · rintro ⟨⟨hlength, hitems⟩, rfl⟩
      exact ⟨_, _, ⟨hlength, List.append_assoc ..⟩, ⟨rfl, hitems⟩, rfl⟩

instance : Exact (Nat × α) where
  reads := by
    refine .record (.field read_count Prod.fst fun column => .field Exact.reads Prod.snd
      fun coefficient => .complete fun v => ?_) (fun v => ?_) fun v => ?_
    · cases v
      simp
    · simp only [List.append_nil]
      rfl
    · exact ⟨fun ⟨hcolumn, ⟨hmembers, hfit⟩, _⟩ => ⟨hmembers, hcolumn, hfit⟩,
        fun ⟨hmembers, hcolumn, hfit⟩ => ⟨hcolumn, ⟨hmembers, hfit⟩, trivial⟩⟩

instance : Exact (Matrix α) where
  reads := by
    refine .record (.field read_count Matrix.width fun width => .field Exact.reads Matrix.rows
      fun rows => .complete fun v => ?_) (fun v => ?_) fun v => ?_
    · cases v
      simp [and_comm]
    · simp only [List.append_nil]
      rfl
    · exact ⟨fun ⟨hwidth, ⟨hmembers, hfit⟩, _⟩ => ⟨hmembers, hwidth, hfit⟩,
        fun ⟨hmembers, hwidth, hfit⟩ => ⟨hwidth, ⟨hmembers, hfit⟩, trivial⟩⟩

instance : Exact (QuadraticProgram α) where
  reads := by
    refine .record (.field read_count QuadraticProgram.numStatement fun numStatement =>
      .field Exact.reads QuadraticProgram.a fun a => .field Exact.reads QuadraticProgram.b fun b =>
      .field Exact.reads QuadraticProgram.c fun c => .complete fun v => ?_) (fun v => ?_) fun v => ?_
    · cases v
      simp [and_assoc, and_comm, and_left_comm]
    · simp only [List.append_nil, ← List.append_assoc]
      rfl
    · exact ⟨fun ⟨hcount, ⟨ha, ha'⟩, ⟨hb, hb'⟩, ⟨hc, hc'⟩, _⟩ =>
          ⟨⟨ha, hb, hc⟩, hcount, ha', hb', hc'⟩,
        fun ⟨⟨ha, hb, hc⟩, hcount, ha', hb', hc'⟩ =>
          ⟨hcount, ⟨ha, ha'⟩, ⟨hb, hb'⟩, ⟨hc, hc'⟩, trivial⟩⟩

variable {G₁ G₂ : Type} [WordForm G₁] [Storable G₁] [Exact G₁] [WordForm G₂] [Storable G₂]
  [Exact G₂]

instance : Exact (Proof G₁ G₂) where
  reads := by
    refine .record (.field Exact.reads Proof.a fun a => .field Exact.reads Proof.b fun b =>
      .field Exact.reads Proof.c fun c => .complete fun v => ?_) (fun v => ?_) fun v => ?_
    · cases v
      simp [and_assoc]
    · simp only [List.append_nil, ← List.append_assoc]
      rfl
    · exact ⟨fun ⟨⟨ha, ha'⟩, ⟨hb, hb'⟩, ⟨hc, hc'⟩, _⟩ => ⟨⟨ha, hb, hc⟩, ha', hb', hc'⟩,
        fun ⟨⟨ha, hb, hc⟩, ha', hb', hc'⟩ => ⟨⟨ha, ha'⟩, ⟨hb, hb'⟩, ⟨hc, hc'⟩, trivial⟩⟩

instance : Exact (VerifyingKey G₁ G₂) where
  reads := by
    refine .record (.field Exact.reads VerifyingKey.alpha fun alpha =>
      .field Exact.reads VerifyingKey.beta fun beta =>
      .field Exact.reads VerifyingKey.gamma fun gamma =>
      .field Exact.reads VerifyingKey.delta fun delta =>
      .field Exact.reads VerifyingKey.statement fun statement => .complete fun v => ?_)
      (fun v => ?_) fun v => ?_
    · cases v
      simp [and_assoc]
    · simp only [List.append_nil, ← List.append_assoc]
      rfl
    · exact ⟨fun ⟨⟨ha, ha'⟩, ⟨hb, hb'⟩, ⟨hg, hg'⟩, ⟨hd, hd'⟩, ⟨hs, hs'⟩, _⟩ =>
          ⟨⟨ha, hb, hg, hd, hs⟩, ha', hb', hg', hd', hs'⟩,
        fun ⟨⟨ha, hb, hg, hd, hs⟩, ha', hb', hg', hd', hs'⟩ =>
          ⟨⟨ha, ha'⟩, ⟨hb, hb'⟩, ⟨hg, hg'⟩, ⟨hd, hd'⟩, ⟨hs, hs'⟩, trivial⟩⟩

instance : Exact (ProvingKey α G₁ G₂) where
  reads := by
    refine .record (.field Exact.reads ProvingKey.verifying fun verifying =>
      .field Exact.reads ProvingKey.beta₁ fun beta₁ =>
      .field Exact.reads ProvingKey.delta₁ fun delta₁ =>
      .field Exact.reads ProvingKey.aQuery fun aQuery =>
      .field Exact.reads ProvingKey.bQuery₁ fun bQuery₁ =>
      .field Exact.reads ProvingKey.bQuery₂ fun bQuery₂ =>
      .field Exact.reads ProvingKey.hQuery fun hQuery =>
      .field Exact.reads ProvingKey.lQuery fun lQuery =>
      .field Exact.reads ProvingKey.program fun program => .complete fun v => ?_)
      (fun v => ?_) fun v => ?_
    · cases v
      simp [and_assoc]
    · simp only [List.append_nil, ← List.append_assoc]
      rfl
    · exact ⟨fun ⟨⟨hv, hv'⟩, ⟨hb, hb'⟩, ⟨hd, hd'⟩, ⟨ha, ha'⟩, ⟨hb₁, hb₁'⟩, ⟨hb₂, hb₂'⟩, ⟨hh, hh'⟩,
            ⟨hl, hl'⟩, ⟨hp, hp'⟩, _⟩ =>
          ⟨⟨hv, hb, hd, ha, hb₁, hb₂, hh, hl, hp⟩, hv', hb', hd', ha', hb₁', hb₂', hh', hl', hp'⟩,
        fun ⟨⟨hv, hb, hd, ha, hb₁, hb₂, hh, hl, hp⟩, hv', hb', hd', ha', hb₁', hb₂', hh', hl',
            hp'⟩ =>
          ⟨⟨hv, hv'⟩, ⟨hb, hb'⟩, ⟨hd, hd'⟩, ⟨ha, ha'⟩, ⟨hb₁, hb₁'⟩, ⟨hb₂, hb₂'⟩, ⟨hh, hh'⟩,
            ⟨hl, hl'⟩, ⟨hp, hp'⟩, trivial⟩⟩

end WordForm

end CircuitProof
