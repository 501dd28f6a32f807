import CircuitProof.Encoding.CompactForm
import CircuitProof.Proofs.Encoding.Artifact
import CircuitProof.Proofs.Files.AtomicWrite

/-!
# From compact to word form

The compact form has numbers of eight bytes where the word form has counts of four, so a value that is
read in compact form can be too large for the word form, although its points are checked in both. Such
a value loses something when it is stored in word form; every other comes back as it was.
-/

namespace CircuitProof

open Storable (Members CountsFit Valid countLimit)

namespace Reader

variable {ε α β : Type}

/-- Whatever the reader takes off a byte string has the property. -/
def Returns (r : Reader ε α) (property : α → Prop) : Prop :=
  ∀ bytes v rest, r bytes = .ok (v, rest) → property v

theorem Returns.bind {r : Reader ε α} {f : α → Reader ε β} {property : α → Prop}
    {property' : β → Prop} (h : r.Returns property)
    (hf : ∀ a, property a → (f a).Returns property') : (r >>= f).Returns property' := by
  intro bytes v rest hread
  obtain ⟨a, mid, hfirst, hsecond⟩ := bind_eq_ok_iff.mp hread
  exact hf a (h _ _ _ hfirst) _ _ _ hsecond

theorem returns_pure {property : α → Prop} {v : α} (h : property v) :
    (pure v : Reader ε α).Returns property := by
  intro bytes w rest hread
  exact (pure_eq_ok_iff.mp hread).1 ▸ h

theorem returns_true (r : Reader ε α) : r.Returns fun _ => True := fun _ _ _ _ => trivial

end Reader

/-- Items of which the valid ones are made of members. -/
class CompactItem.Checked (α : Type) [CompactItem α] [Storable α] : Prop where
  members : ∀ x : α, isValid x = true → Members x

/-- Types whose compact form stands for values made of members only. -/
class CompactForm.Checked (α : Type) [CompactForm α] [Storable α] : Prop where
  members : (read : CompactReader α).Returns Members

namespace CompactItem.Checked

variable {α : Type} [CompactItem α] [Storable α] [Checked α]

instance {p : Nat} : Checked (Residue p) := ⟨fun _ _ => trivial⟩

instance : Checked G1 := ⟨fun _ h => h⟩

instance : Checked G2 := ⟨fun _ h => h⟩

instance : Checked (List α) := ⟨fun _ h x hx => members x (List.all_eq_true.mp h x hx)⟩

instance : Checked (Nat × α) := ⟨fun term h => members term.2 h⟩

end CompactItem.Checked

namespace CompactForm.Checked

open Reader (returns_pure returns_true)

section
variable {α : Type} [CompactItem α] [Storable α] [CompactItem.Checked α]

/-- A single item is returned only after its check. -/
instance : Checked α where
  members := by
    refine (returns_true CompactItem.read).bind fun item _ => ?_
    intro bytes v rest hread
    split at hread
    · next hvalid => exact returns_pure (CompactItem.Checked.members item hvalid) _ _ _ hread
    · exact absurd hread (Reader.fail_ne_ok _ _ _)

instance : Checked (Matrix α) where
  members := members.bind fun _ hrows => (returns_true readCount).bind fun _ _ => returns_pure hrows

instance : Checked (QuadraticProgram α) where
  members := members.bind fun _ ha => members.bind fun _ hb => members.bind fun _ hc =>
    (returns_true readCount).bind fun _ _ => returns_pure ⟨ha, hb, hc⟩

end

variable {α G₁ G₂ : Type} [CompactItem α] [Storable α] [CompactItem.Checked α]
  [CompactItem G₁] [Storable G₁] [CompactItem.Checked G₁]
  [CompactItem G₂] [Storable G₂] [CompactItem.Checked G₂]

instance : Checked (Proof G₁ G₂) where
  members := members.bind fun _ ha => members.bind fun _ hb => members.bind fun _ hc =>
    returns_pure ⟨ha, hb, hc⟩

instance : Checked (VerifyingKey G₁ G₂) where
  members := members.bind fun _ halpha => members.bind fun _ hbeta => members.bind fun _ hgamma =>
    members.bind fun _ hdelta => members.bind fun _ hstatement =>
    returns_pure ⟨halpha, hbeta, hgamma, hdelta, hstatement⟩

instance : Checked (ProvingKey α G₁ G₂) where
  members := members.bind fun _ hverifying => members.bind fun _ hbeta =>
    members.bind fun _ hdelta => members.bind fun _ ha => members.bind fun _ hb₁ =>
    members.bind fun _ hb₂ => members.bind fun _ hh => members.bind fun _ hl =>
    members.bind fun _ hprogram =>
    returns_pure ⟨hverifying, hbeta, hdelta, ha, hb₁, hb₂, hh, hl, hprogram⟩

end CompactForm.Checked

namespace Artifact

variable {α : Type} [Artifact α]

/-- What is decoded from compact form is made of members. -/
theorem members_of_decodeCompact [CompactForm α] [Storable α] [CompactForm.Checked α]
    {bytes : Bytes} {v : α} (h : decodeCompact bytes = .ok v) : Members v := by
  rw [decodeCompact] at h
  split at h
  · cases h
  · split at h
    · cases h
    · next hread =>
      cases h
      exact CompactForm.Checked.members _ _ _ hread
    · cases h

def Loads [WordForm α] (disk : Disk) (path : Path) (v : α) : Prop :=
  ∃ bytes, disk.read path = .ok bytes ∧ decode bytes = .ok v

def LoadsCompact [CompactForm α] (disk : Disk) (path : Path) (v : α) : Prop :=
  ∃ bytes, disk.read path = .ok bytes ∧ decodeCompact bytes = .ok v

/-- Storing in word form loses nothing of a value that a file holds in compact form, provided that its
counts fit, and loses something otherwise. -/
def ConvertsIfFits (α : Type) [Artifact α] [WordForm α] [CompactForm α] [Storable α] : Prop :=
  ∀ (disk disk' : Disk) (source target : Path) (suffix : String) (v : α),
    LoadsCompact disk source v → disk.writeAtomic suffix target (encode v) = (.ok (), disk') →
      (Loads disk' target v ↔ CountsFit v)

/-- Only counts are cut to four bytes; everything else goes through both forms. -/
theorem convertsIfFits [WordForm α] [CompactForm α] [Storable α] [WordForm.Exact α]
    [CompactForm.Checked α] : ConvertsIfFits α := by
  rintro disk disk' source target suffix v ⟨_, -, hcompact⟩ hwrite
  have hmembers := members_of_decodeCompact hcompact
  have hread := Disk.read_of_writeAtomic hwrite
  have hdecode : decode (encode v) = .ok v ↔ CountsFit v := by
    rw [oneEncoding, Valid]
    simp only [true_and, hmembers]
  constructor
  · rintro ⟨bytes, hbytes, hloaded⟩
    cases hread.symm.trans hbytes
    exact hdecode.mp hloaded
  · exact fun hfit => ⟨_, hread, hdecode.mpr hfit⟩

end Artifact

open Artifact (Loads LoadsCompact encode encodeCompact decodeCompact convertsIfFits)

/-! ## Keys of nothing but infinities -/

/-- A key without columns that announces a number of statement columns. -/
def hollowKey (numStatement : Nat) : ProvingKey Scalar G1 G2 :=
  let vk : VerifyingKey G1 G2 := ⟨.infinity, .infinity, .infinity, .infinity, []⟩
  let none : Matrix Scalar := ⟨[], 0⟩
  ⟨vk, .infinity, .infinity, [], [], [], [], [], ⟨none, none, none, numStatement⟩⟩

/-- The announced number is the only count of such a key that can be too large. -/
theorem countsFit_hollowKey_iff (n : Nat) : CountsFit (hollowKey n) ↔ n < countLimit := by
  have hempty : (0 : Nat) < countLimit := by decide
  simp [hollowKey, CountsFit, hempty]

/-- A disk with one file, at `key`. -/
def keyDisk (bytes : Bytes) : Disk := ⟨[(["key"], .file 0)], [(0, bytes)], 1⟩

theorem keyDisk_writeAtomic (held bytes : Bytes) :
    ∃ disk, (keyDisk held).writeAtomic ".tmp" (.ofString "raw") bytes = (.ok (), disk) := by
  simp only [Disk.writeAtomic_eq_ok_iff, Writer.succeeds_iff]
  exact ⟨_, _, _, _, rfl, rfl, rfl⟩

/-- A file in compact form that is loaded, stored in word form and loaded again comes back as the same
proof; a verifying key comes back if it has fewer than `2 ^ 32` statement points, and a proving key if
all its counts, columns and widths are below `2 ^ 32`. -/
theorem conversion_loses_nothing_iff (disk disk' : Disk) (source target : Path) (suffix : String) :
    (∀ proof : Proof G1 G2, LoadsCompact disk source proof →
      disk.writeAtomic suffix target (encode proof) = (.ok (), disk') → Loads disk' target proof) ∧
    (∀ vk : VerifyingKey G1 G2, LoadsCompact disk source vk →
      disk.writeAtomic suffix target (encode vk) = (.ok (), disk') →
        (Loads disk' target vk ↔ vk.statement.length < countLimit)) ∧
    (∀ pk : ProvingKey Scalar G1 G2, LoadsCompact disk source pk →
      disk.writeAtomic suffix target (encode pk) = (.ok (), disk') →
        (Loads disk' target pk ↔ CountsFit pk)) := by
  refine ⟨fun proof hload hwrite => ?_, fun vk hload hwrite => ?_, fun pk hload hwrite => ?_⟩
  · exact (convertsIfFits _ _ _ _ _ _ hload hwrite).mpr ⟨trivial, trivial, trivial⟩
  · rw [convertsIfFits _ _ _ _ _ _ hload hwrite]
    exact ⟨fun ⟨_, _, _, _, hlength, _⟩ => hlength,
      fun hlength => ⟨trivial, trivial, trivial, trivial, hlength, fun _ _ => trivial⟩⟩
  · exact convertsIfFits _ _ _ _ _ _ hload hwrite

/-- A key with the largest number of statement columns that four bytes hold is converted. -/
theorem conversion_loses_nothing_largest :
    ∃ disk, (keyDisk (encodeCompact (hollowKey (countLimit - 1)))).writeAtomic ".tmp"
        (.ofString "raw") (encode (hollowKey (countLimit - 1))) = (.ok (), disk) ∧
      Loads disk (.ofString "raw") (hollowKey (countLimit - 1)) := by
  have hload : LoadsCompact (keyDisk (encodeCompact (hollowKey (countLimit - 1))))
      (.ofString "key") (hollowKey (countLimit - 1)) := ⟨_, rfl, rfl⟩
  obtain ⟨disk, hwrite⟩ := keyDisk_writeAtomic (encodeCompact (hollowKey (countLimit - 1)))
    (encode (hollowKey (countLimit - 1)))
  refine ⟨disk, hwrite, ?_⟩
  exact ((conversion_loses_nothing_iff _ disk _ _ _).2.2 _ hload hwrite).mpr
    ((countsFit_hollowKey_iff _).mpr (by decide))

/-- One more statement column and the key is lost: what is loaded from the word form has none. -/
theorem conversion_loses_statement_columns :
    LoadsCompact (keyDisk (encodeCompact (hollowKey countLimit))) (.ofString "key")
        (hollowKey countLimit) ∧
      ∃ disk, (keyDisk (encodeCompact (hollowKey countLimit))).writeAtomic ".tmp"
          (.ofString "raw") (encode (hollowKey countLimit)) = (.ok (), disk) ∧
        ¬ Loads disk (.ofString "raw") (hollowKey countLimit) ∧
        Loads disk (.ofString "raw") (hollowKey 0) := by
  have hload : LoadsCompact (keyDisk (encodeCompact (hollowKey countLimit)))
      (.ofString "key") (hollowKey countLimit) := ⟨_, rfl, rfl⟩
  obtain ⟨disk, hwrite⟩ := keyDisk_writeAtomic (encodeCompact (hollowKey countLimit))
    (encode (hollowKey countLimit))
  refine ⟨hload, disk, hwrite, ?_, _, Disk.read_of_writeAtomic hwrite, rfl⟩
  rw [convertsIfFits _ _ _ _ _ _ hload hwrite, countsFit_hollowKey_iff]
  exact Nat.lt_irrefl _

end CircuitProof
