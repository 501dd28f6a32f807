import CircuitProof.Proofs.Bn254.Compression
import CircuitProof.Proofs.Bytes.Reader
import CircuitProof.Proofs.Encoding.Conversion

/-!
# Values in compact form come back

A coordinate and its flag share a number of 256 bits, so both are read off it, and the flag chooses the
second coordinate among the two roots.
-/

namespace CircuitProof

open Storable (Members)

theorem Reader.Returns.times {ε α : Type} {r : Reader ε α} {property : α → Prop}
    (h : r.Returns property) (n : Nat) :
    (r.times n).Returns fun items => items.length = n ∧ ∀ x ∈ items, property x := by
  induction n with
  | zero => exact returns_pure ⟨rfl, nofun⟩
  | succ n ih =>
    exact h.bind fun x hx => ih.bind fun xs hxs =>
      returns_pure ⟨congrArg (· + 1) hxs.1, List.forall_mem_cons.mpr ⟨hx, hxs.2⟩⟩

/-- What memory holds: numbers of eight bytes, and lists for which there is room. -/
class Memory (α : Type) where
  Holds : α → Prop

namespace Memory

open CompactForm (memoryLimit)

def numberLimit : Nat := Nat.pow 256 8

variable {α : Type} [Memory α]

instance {p : Nat} : Memory (Residue p) where
  Holds _ := True

instance : Memory G1 where
  Holds _ := True

instance : Memory G2 where
  Holds _ := True

instance [CompactItem α] : Memory (List α) where
  Holds items := items.length * CompactItem.room α < memoryLimit ∧ ∀ x ∈ items, Holds x

instance : Memory (Nat × α) where
  Holds term := term.1 < numberLimit ∧ Holds term.2

instance [CompactItem α] : Memory (Matrix α) where
  Holds m := Holds m.rows ∧ m.width < numberLimit

instance [CompactItem α] : Memory (QuadraticProgram α) where
  Holds p := Holds p.a ∧ Holds p.b ∧ Holds p.c ∧ p.numStatement < numberLimit

variable {G₁ G₂ : Type} [Memory G₁] [Memory G₂]

instance : Memory (Proof G₁ G₂) where
  Holds proof := Holds proof.a ∧ Holds proof.b ∧ Holds proof.c

instance [CompactItem G₁] : Memory (VerifyingKey G₁ G₂) where
  Holds vk :=
    Holds vk.alpha ∧ Holds vk.beta ∧ Holds vk.gamma ∧ Holds vk.delta ∧ Holds vk.statement

instance [CompactItem α] [CompactItem G₁] [CompactItem G₂] : Memory (ProvingKey α G₁ G₂) where
  Holds pk :=
    Holds pk.verifying ∧ Holds pk.beta₁ ∧ Holds pk.delta₁ ∧ Holds pk.aQuery ∧ Holds pk.bQuery₁ ∧
      Holds pk.bQuery₂ ∧ Holds pk.hQuery ∧ Holds pk.lQuery ∧ Holds pk.program

end Memory

open Memory (Holds numberLimit)

/-! ## Numbers and flagged coordinates -/

namespace CompactForm

theorem returns_count : readCount.Returns (· < numberLimit) := by
  intro bytes n rest hread
  obtain ⟨word, mid, hword, hnumber⟩ := Reader.bind_eq_ok_iff.mp hread
  obtain ⟨rfl, -⟩ := Reader.pure_eq_ok_iff.mp hnumber
  obtain ⟨hlength, -⟩ := Reader.take_eq_ok_iff.mp hword
  rw [numberLimit, ← hlength]
  exact ofLittleEndian_lt word

/-- A number that fits in its bytes is the one that is read. -/
theorem takes_littleEndian {α : Type} {next : Bytes → CompactReader α} {width n : Nat} {v : α}
    (h : n < Nat.pow 256 width) (hnext : ∀ word, ofLittleEndian word = n → next word = pure v) :
    (take width >>= next).Takes (littleEndian width n) v := by
  refine (Reader.takes_take _ (length_littleEndian width n)).bind_pure (hnext _ ?_)
  rw [ofLittleEndian_littleEndian]
  exact Nat.mod_eq_of_lt h

theorem takes_count {n : Nat} (h : n < numberLimit) : readCount.Takes (writeCount n) n :=
  takes_littleEndian h fun _ hnumber => congrArg pure hnumber

namespace Flag

variable {x : Nat}

/-- A number below `2 ^ 254` leaves the two highest bits to the flag. -/
theorem ofNumber?_add_bits (h : x < 2 ^ 254) (flag : Flag) :
    ofNumber? (x + flag.bits) = some flag := by
  have hlow : x.testBit 254 = false := Nat.testBit_lt_two_pow h
  have hhigh : x.testBit 255 = false := Nat.testBit_lt_two_pow (by omega)
  rw [ofNumber?, Nat.add_comm]
  cases flag with
  | smaller => rw [bits, Nat.zero_add, hlow, hhigh]
  | larger =>
    have hbit : (2 ^ 255 + x).testBit 255 = true := by
      rw [Nat.testBit_two_pow_add_eq, hhigh, Bool.not_false]
    have hother : (2 ^ 255 + x).testBit 254 = false := by
      rw [Nat.testBit_two_pow_add_gt (by decide), hlow]
    rw [show bits larger = 2 ^ 255 from rfl, hbit, hother]
  | infinity =>
    have hbit : (2 ^ 254 + x).testBit 254 = true := by
      rw [Nat.testBit_two_pow_add_eq, hlow, Bool.not_false]
    have hother : (2 ^ 254 + x).testBit 255 = false := Nat.testBit_lt_two_pow (by omega)
    rw [show bits infinity = 2 ^ 254 from rfl, hbit, hother]

theorem add_bits_mod (h : x < 2 ^ 254) (flag : Flag) : (x + flag.bits) % 2 ^ 254 = x := by
  have hbits : flag.bits % 2 ^ 254 = 0 := by cases flag <;> decide
  rw [Nat.add_mod, hbits, Nat.add_zero, Nat.mod_mod, Nat.mod_eq_of_lt h]

theorem add_bits_lt (h : x < 2 ^ 254) (flag : Flag) : x + flag.bits < 2 ^ 256 := by
  have hbits : flag.bits ≤ 2 ^ 255 := by cases flag <;> decide
  omega

end Flag

/-- The two highest bits are free, because a coordinate has 254 bits. -/
theorem takes_flagged (x : Base) (flag : Flag) :
    readFlagged.Takes (writeFlagged x flag) (x, flag) := by
  have hx : x.val < 2 ^ 254 := Nat.lt_trans x.lt (by decide)
  have hcoordinate : (x.val + flag.bits) % Nat.pow 2 254 = x.val := Flag.add_bits_mod hx flag
  refine takes_littleEndian (Flag.add_bits_lt hx flag) fun word hnumber => ?_
  simp only [hnumber, Flag.ofNumber?_add_bits hx, hcoordinate, Residue.ofNat?_val]
  rfl

/-- The flag chooses the second coordinate. -/
theorem pointOf_ofLarger {K : Type} {ofX? : K → Bool → Option (Point K)} {x : K} {isLarger : Bool}
    {p : Point K} (h : ofX? x isLarger = some p) : pointOf ofX? x (.ofLarger isLarger) = pure p := by
  cases isLarger <;> simp [Flag.ofLarger, pointOf, h, Reader.ofOption]

end CompactForm

/-! ## Items and lists -/

/-- Items that come back from their compact form if they are made of members and memory holds them. -/
class CompactItem.RoundTrips (α : Type) [CompactItem α] [Storable α] [Memory α] : Prop where
  room_pos : 0 < room α
  takes : ∀ v : α, Members v → Holds v → (read : CompactReader α).Takes (write v) v
  isValid_of_members : ∀ v : α, Members v → isValid v = true
  holds : (read : CompactReader α).Returns Holds

namespace CompactItem.RoundTrips

open CompactForm (returns_count takes_count takes_flagged takes_littleEndian)
open Reader (returns_pure returns_true)

/-- The residues of a modulus that fits in 32 bytes. -/
instance {p : Nat} [WordForm.WordModulus p] : RoundTrips (Residue p) where
  room_pos := Nat.succ_pos 31
  takes a _ _ := by
    have hfits : a.val < Nat.pow 256 32 := Nat.lt_of_lt_of_le a.lt WordForm.WordModulus.le
    refine takes_littleEndian hfits fun word hnumber => ?_
    rw [hnumber, Residue.ofNat?_val]
    rfl
  isValid_of_members _ _ := rfl
  holds := returns_true _

instance : RoundTrips G1 where
  room_pos := by decide
  takes p hmember _ := by
    cases p with
    | infinity => exact (takes_flagged 0 .infinity).bind_pure rfl
    | finite x y =>
      have hcurve := (Bool.and_eq_true_iff.mp hmember).1
      exact (takes_flagged x _).bind_pure (CompactForm.pointOf_ofLarger (G1.ofX?_isLarger hcurve))
  isValid_of_members _ hmember := hmember
  holds := returns_true _

instance : RoundTrips G2 where
  room_pos := by decide
  takes p hmember _ := by
    cases p with
    | infinity =>
      exact (takes (0 : Base) trivial trivial).bind ((takes_flagged 0 .infinity).bind_pure rfl)
    | finite x y =>
      have hcurve := (Bool.and_eq_true_iff.mp hmember).1
      exact (takes x.c0 trivial trivial).bind ((takes_flagged x.c1 _).bind_pure
        (CompactForm.pointOf_ofLarger (G2.ofX?_isLarger hcurve)))
  isValid_of_members _ hmember := hmember
  holds := returns_true _

variable {α : Type} [CompactItem α] [Storable α] [Memory α] [RoundTrips α]

instance : RoundTrips (List α) where
  room_pos := Nat.succ_pos 23
  takes items hmembers hholds := by
    obtain ⟨hroom, hitems⟩ := hholds
    have hlength : items.length < numberLimit :=
      calc items.length ≤ items.length * room α := Nat.le_mul_of_pos_right _ room_pos
        _ < CompactForm.memoryLimit := hroom
        _ ≤ numberLimit := by decide
    refine (takes_count hlength).bind ?_
    rw [if_pos hroom]
    exact Reader.Takes.times fun x hx => takes x (hmembers x hx) (hitems x hx)
  isValid_of_members items hmembers :=
    List.all_eq_true.mpr fun x hx => isValid_of_members x (hmembers x hx)
  holds := by
    refine returns_count.bind fun count _ => ?_
    split
    · next hroom =>
      intro bytes items rest hread
      obtain ⟨rfl, hitems⟩ := holds.times count _ _ _ hread
      exact ⟨hroom, hitems⟩
    · exact fun _ _ _ hread => absurd hread (Reader.fail_ne_ok _ _ _)

instance : RoundTrips (Nat × α) where
  room_pos := Nat.add_pos_left (by decide) _
  takes term hmembers hholds :=
    (takes_count hholds.1).bind ((takes term.2 hmembers hholds.2).bind_pure rfl)
  isValid_of_members term hmembers := isValid_of_members term.2 hmembers
  holds := returns_count.bind fun _ hcolumn => holds.bind fun _ hcoefficient =>
    returns_pure ⟨hcolumn, hcoefficient⟩

end CompactItem.RoundTrips

/-! ## Records -/

/-- Types of which exactly the values that are made of members and that memory holds come back from
their compact form. -/
class CompactForm.RoundTrips (α : Type) [CompactForm α] [Storable α] [Memory α] : Prop where
  takes : ∀ v : α, Members v → Holds v → (read : CompactReader α).Takes (write v) v
  holds : (read : CompactReader α).Returns Holds

namespace CompactForm.RoundTrips

open Reader (returns_pure)

section
variable {α : Type} [CompactItem α] [Storable α] [Memory α] [CompactItem.RoundTrips α]

/-- A single item passes the check behind it. -/
instance : RoundTrips α where
  takes v hmembers hholds := (CompactItem.RoundTrips.takes v hmembers hholds).bind_pure
    (if_pos (CompactItem.RoundTrips.isValid_of_members v hmembers))
  holds := by
    refine CompactItem.RoundTrips.holds.bind fun item hitem => ?_
    split
    · exact returns_pure hitem
    · exact fun _ _ _ hread => absurd hread (Reader.fail_ne_ok _ _ _)

instance : RoundTrips (Matrix α) where
  takes m hmembers hholds :=
    (takes m.rows hmembers hholds.1).bind ((takes_count hholds.2).bind_pure rfl)
  holds := holds.bind fun _ hrows => returns_count.bind fun _ hwidth => returns_pure ⟨hrows, hwidth⟩

instance : RoundTrips (QuadraticProgram α) where
  takes p := by
    rintro ⟨ha, hb, hc⟩ ⟨ha', hb', hc', hcount⟩
    refine .of_eq (.bind (takes p.a ha ha') (.bind (takes p.b hb hb') (.bind (takes p.c hc hc')
      (.bind_pure (takes_count hcount) rfl)))) ?_
    simp only [← List.append_assoc]
    rfl
  holds := holds.bind fun _ ha => holds.bind fun _ hb => holds.bind fun _ hc =>
    returns_count.bind fun _ hcount => returns_pure ⟨ha, hb, hc, hcount⟩

end

variable {α G₁ G₂ : Type} [CompactItem α] [Storable α] [Memory α] [CompactItem.RoundTrips α]
  [CompactItem G₁] [Storable G₁] [Memory G₁] [CompactItem.RoundTrips G₁]
  [CompactItem G₂] [Storable G₂] [Memory G₂] [CompactItem.RoundTrips G₂]

instance : RoundTrips (Proof G₁ G₂) where
  takes proof := by
    rintro ⟨ha, hb, hc⟩ ⟨ha', hb', hc'⟩
    refine .of_eq (.bind (takes proof.a ha ha') (.bind (takes proof.b hb hb')
      (.bind_pure (takes proof.c hc hc') rfl))) ?_
    simp only [← List.append_assoc]
    rfl
  holds := holds.bind fun _ ha => holds.bind fun _ hb => holds.bind fun _ hc =>
    returns_pure ⟨ha, hb, hc⟩

instance : RoundTrips (VerifyingKey G₁ G₂) where
  takes vk := by
    rintro ⟨halpha, hbeta, hgamma, hdelta, hstatement⟩
      ⟨halpha', hbeta', hgamma', hdelta', hstatement'⟩
    refine .of_eq (.bind (takes vk.alpha halpha halpha') (.bind (takes vk.beta hbeta hbeta')
      (.bind (takes vk.gamma hgamma hgamma') (.bind (takes vk.delta hdelta hdelta')
      (.bind_pure (takes vk.statement hstatement hstatement') rfl))))) ?_
    simp only [← List.append_assoc]
    rfl
  holds := holds.bind fun _ halpha => holds.bind fun _ hbeta => holds.bind fun _ hgamma =>
    holds.bind fun _ hdelta => holds.bind fun _ hstatement =>
    returns_pure ⟨halpha, hbeta, hgamma, hdelta, hstatement⟩

instance : RoundTrips (ProvingKey α G₁ G₂) where
  takes pk := by
    rintro ⟨hv, hbeta, hdelta, ha, hb₁, hb₂, hh, hl, hprogram⟩
      ⟨hv', hbeta', hdelta', ha', hb₁', hb₂', hh', hl', hprogram'⟩
    refine .of_eq (.bind (takes pk.verifying hv hv') (.bind (takes pk.beta₁ hbeta hbeta')
      (.bind (takes pk.delta₁ hdelta hdelta') (.bind (takes pk.aQuery ha ha')
      (.bind (takes pk.bQuery₁ hb₁ hb₁') (.bind (takes pk.bQuery₂ hb₂ hb₂')
      (.bind (takes pk.hQuery hh hh') (.bind (takes pk.lQuery hl hl')
      (.bind_pure (takes pk.program hprogram hprogram') rfl))))))))) ?_
    simp only [← List.append_assoc]
    rfl
  holds := holds.bind fun _ hv => holds.bind fun _ hbeta => holds.bind fun _ hdelta =>
    holds.bind fun _ ha => holds.bind fun _ hb₁ => holds.bind fun _ hb₂ => holds.bind fun _ hh =>
    holds.bind fun _ hl => holds.bind fun _ hprogram =>
    returns_pure ⟨hv, hbeta, hdelta, ha, hb₁, hb₂, hh, hl, hprogram⟩

end CompactForm.RoundTrips

/-! ## Files -/

namespace Artifact

variable {α : Type} [Artifact α] [CompactForm α] [Storable α] [Memory α] [CompactForm.RoundTrips α]

/-- What stands behind the compact form of an artifact is left over. -/
theorem decodeCompact_encodeCompact_append {v : α} (hmembers : Members v) (hholds : Holds v)
    (tail : Bytes) :
    decodeCompact (encodeCompact v ++ tail) =
      match tail with
      | [] => .ok v
      | _ :: _ => .error (.trailingBytes tail.length) := by
  have hstrip : stripHeader (kind α) (encodeCompact v ++ tail) = .ok (CompactForm.write v ++ tail) :=
    stripHeader_eq_ok_iff.mpr (List.append_assoc ..)
  have hread := CompactForm.RoundTrips.takes v hmembers hholds tail
  rw [decodeCompact, hstrip]
  cases tail <;> simp only [hread]

theorem holds_of_decodeCompact {bytes : Bytes} {v : α} (h : decodeCompact bytes = .ok v) :
    Holds v := by
  rw [decodeCompact] at h
  split at h
  · cases h
  · split at h
    · cases h
    · next hread =>
      cases h
      exact CompactForm.RoundTrips.holds _ _ _ hread
    · cases h

/-- The checks of the reader refuse nothing else. -/
theorem decodeCompact_encodeCompact_iff [CompactForm.Checked α] (v : α) :
    decodeCompact (encodeCompact v) = .ok v ↔ Members v ∧ Holds v := by
  constructor
  · exact fun h => ⟨members_of_decodeCompact h, holds_of_decodeCompact h⟩
  · rintro ⟨hmembers, hholds⟩
    rw [← List.append_nil (encodeCompact v), decodeCompact_encodeCompact_append hmembers hholds]

/-- The file at a path is read and refused as a value in compact form. -/
def RefusesCompact (α : Type) [Artifact α] [CompactForm α] (disk : Disk) (path : Path)
    (e : ArtifactError) : Prop :=
  ∃ bytes, disk.read path = .ok bytes ∧ (decodeCompact bytes : Except ArtifactError α) = .error e

/-- A value that is stored in compact form is loaded again if its points are members and memory holds
it, and only then. If the file has bytes behind such a value, loading it fails and tells how many. -/
def KeepsCompact (α : Type) [Artifact α] [CompactForm α] [Storable α] [Memory α] : Prop :=
  ∀ (disk disk' : Disk) (suffix : String) (path : Path) (v : α),
    disk.writeAtomic suffix path (encodeCompact v) = (.ok (), disk') →
      (LoadsCompact disk' path v ↔ Members v ∧ Holds v) ∧
      (Members v → Holds v → ∀ (longer : Disk) (saved tail : Bytes), tail ≠ [] →
        disk'.read path = .ok saved → longer.read path = .ok (saved ++ tail) →
          RefusesCompact α longer path (.trailingBytes tail.length))

theorem keepsCompact [CompactForm.Checked α] : KeepsCompact α := by
  intro disk disk' suffix path v hwrite
  have hsaved := Disk.read_of_writeAtomic hwrite
  constructor
  · rw [← decodeCompact_encodeCompact_iff]
    constructor
    · rintro ⟨bytes, hbytes, hloaded⟩
      cases hsaved.symm.trans hbytes
      exact hloaded
    · exact fun hloaded => ⟨_, hsaved, hloaded⟩
  · intro hmembers hholds longer saved tail htail hread hlonger
    cases hsaved.symm.trans hread
    obtain ⟨byte, tail, rfl⟩ := List.exists_cons_of_ne_nil htail
    exact ⟨_, hlonger, decodeCompact_encodeCompact_append hmembers hholds _⟩

end Artifact

open Artifact (KeepsCompact LoadsCompact RefusesCompact encodeCompact keepsCompact)

/-- Proofs, verifying keys and proving keys that are stored in compact form are loaded again, provided
that their points are members, their numbers take no more than eight bytes and their lists are such as
memory has room for. Bytes appended to such a file are left over. -/
theorem compact_artifacts_round_trip :
    KeepsCompact (Proof G1 G2) ∧ KeepsCompact (VerifyingKey G1 G2) ∧
      KeepsCompact (ProvingKey Scalar G1 G2) :=
  ⟨keepsCompact, keepsCompact, keepsCompact⟩

/-- The proof of two generators and infinity is loaded again, but not with one more byte in its file.
A proving key whose number of statement columns takes a ninth byte is lost. -/
theorem compact_artifacts_round_trip_samples :
    (∃ disk longer, (keyDisk []).writeAtomic ".tmp" (.ofString "raw")
        (encodeCompact (⟨G1.generator, G2.generator, .infinity⟩ : Proof G1 G2)) = (.ok (), disk) ∧
      LoadsCompact disk (.ofString "raw") (⟨G1.generator, G2.generator, .infinity⟩ : Proof G1 G2) ∧
      RefusesCompact (Proof G1 G2) longer (.ofString "raw") (.trailingBytes 1)) ∧
    ∃ disk, (keyDisk []).writeAtomic ".tmp" (.ofString "raw")
        (encodeCompact (hollowKey numberLimit)) = (.ok (), disk) ∧
      ¬ LoadsCompact disk (.ofString "raw") (hollowKey numberLimit) := by
  obtain ⟨hproof, -, hproving⟩ := compact_artifacts_round_trip
  constructor
  · have hfirst : G1.isMember G1.generator = true := by decide +kernel
    have hsecond : G2.isMember G2.generator = true := by decide +kernel
    generalize hvalue : (⟨G1.generator, G2.generator, .infinity⟩ : Proof G1 G2) = proof
    have hmembers : Members proof := hvalue ▸ ⟨hfirst, hsecond, rfl⟩
    have hholds : Holds proof := ⟨trivial, trivial, trivial⟩
    obtain ⟨disk, hwrite⟩ := keyDisk_writeAtomic [] (encodeCompact proof)
    obtain ⟨longer, hlonger⟩ := keyDisk_writeAtomic [] (encodeCompact proof ++ [0])
    obtain ⟨hloads, hrefuses⟩ := hproof _ _ _ _ _ hwrite
    refine ⟨disk, longer, hwrite, hloads.mpr ⟨hmembers, hholds⟩, ?_⟩
    exact hrefuses hmembers hholds longer _ [0] (List.cons_ne_nil _ _)
      (Disk.read_of_writeAtomic hwrite) (Disk.read_of_writeAtomic hlonger)
  · obtain ⟨disk, hwrite⟩ := keyDisk_writeAtomic [] (encodeCompact (hollowKey numberLimit))
    refine ⟨disk, hwrite, fun hload => ?_⟩
    obtain ⟨-, hholds⟩ := (hproving _ _ _ _ _ hwrite).1.mp hload
    obtain ⟨-, -, -, -, -, -, -, -, -, -, -, hcount⟩ := hholds
    exact Nat.lt_irrefl _ hcount

end CircuitProof
