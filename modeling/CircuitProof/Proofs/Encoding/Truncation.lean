import CircuitProof.Proofs.Bytes.Reader
import CircuitProof.Proofs.Encoding.Artifact

/-!
# Word forms that are cut or continued

A word form ends by itself: reading leaves what follows it, and a piece of it is too short. The reader
never finds anything else wrong with a piece, since it looks at nothing behind the bytes that it asks
for and would find the same wrong with the whole.
-/

namespace CircuitProof

open Storable (Valid countLimit)

namespace WordForm

/-- The error of a reader that asks for more bytes than are left. -/
def AsksForMore (e : ArtifactError) : Prop :=
  ∃ needed left, e = .truncated needed left ∧ left < needed

/-- Types whose readers say of a byte string what they say of any longer one, unless they ask for
more. -/
class Steady (α : Type) [WordForm α] : Prop where
  steady : (read : ArtifactReader α).Steady AsksForMore

namespace Steady

open Reader (steady_fail steady_ofOption steady_pure steady_take)

theorem steady_word (n : Nat) : (take n).Steady AsksForMore :=
  steady_take fun left hleft => ⟨n, left.length, rfl, hleft⟩

theorem steady_count : readCount.Steady AsksForMore :=
  (steady_word countWidth).bind fun _ => steady_pure _

instance {p : Nat} [Modulus p] : Steady (Residue p) where
  steady := (steady_word wordWidth).bind fun _ => steady_ofOption _ _

instance : Steady Base2 where
  steady := steady.bind fun _ => steady.bind fun _ => steady_pure _

theorem steady_pointOf {K : Type} [Zero K] [DecidableEq K] (group : String)
    (isMember : Point K → Bool) (x y : K) : (pointOf group isMember x y).Steady AsksForMore := by
  rw [pointOf]
  split
  · exact steady_pure _
  · split
    · exact steady_pure _
    · exact steady_fail _

instance : Steady G1 where
  steady := steady.bind fun x => steady.bind fun y => steady_pointOf "G1" G1.isMember x y

instance : Steady G2 where
  steady := steady.bind fun x => steady.bind fun y => steady_pointOf "G2" G2.isMember x y

variable {α : Type} [WordForm α] [Steady α]

instance : Steady (List α) where
  steady := steady_count.bind fun count => steady.times count

instance : Steady (Nat × α) where
  steady := steady_count.bind fun _ => steady.bind fun _ => steady_pure _

instance : Steady (Matrix α) where
  steady := steady_count.bind fun _ => steady.bind fun _ => steady_pure _

instance : Steady (QuadraticProgram α) where
  steady := steady_count.bind fun _ => steady.bind fun _ => steady.bind fun _ => steady.bind fun _ =>
    steady_pure _

variable {G₁ G₂ : Type} [WordForm G₁] [Steady G₁] [WordForm G₂] [Steady G₂]

instance : Steady (Proof G₁ G₂) where
  steady := steady.bind fun _ => steady.bind fun _ => steady.bind fun _ => steady_pure _

instance : Steady (VerifyingKey G₁ G₂) where
  steady := steady.bind fun _ => steady.bind fun _ => steady.bind fun _ => steady.bind fun _ =>
    steady.bind fun _ => steady_pure _

instance : Steady (ProvingKey α G₁ G₂) where
  steady := steady.bind fun _ => steady.bind fun _ => steady.bind fun _ => steady.bind fun _ =>
    steady.bind fun _ => steady.bind fun _ => steady.bind fun _ => steady.bind fun _ =>
    steady.bind fun _ => steady_pure _

end Steady

variable {α : Type} [WordForm α] [Storable α] [Exact α]

theorem takes_write {v : α} (h : Valid v) : (read : ArtifactReader α).Takes (write v) v :=
  fun _ => (Exact.reads _ _ _).mpr ⟨h, rfl⟩

/-- The reader stops at the end of the value and counts what is left. -/
theorem decode_write_append {v : α} (h : Valid v) {tail : Bytes} (htail : tail ≠ []) :
    (decode (write v ++ tail) : Except ArtifactError α) = .error (.trailingBytes tail.length) := by
  obtain ⟨byte, tail, rfl⟩ := List.exists_cons_of_ne_nil htail
  rw [decode, Reader.whole, takes_write h]

/-- A steady reader that took the whole form asks for more of any piece of it. -/
theorem decode_prefix [Steady α] {v : α} (h : Valid v) {cut : Bytes} (hpiece : cut <+: write v)
    (hne : cut ≠ write v) :
    ∃ e, AsksForMore e ∧ (decode cut : Except ArtifactError α) = .error e := by
  obtain ⟨e, hshort, hread⟩ := (takes_write h).short_of_piece Steady.steady hpiece hne
  exact ⟨e, hshort, by rw [decode, Reader.whole, hread]⟩

end WordForm

open WordForm (AsksForMore)

/-- The word forms of the valid values end by themselves: reading leaves what follows, bytes that
follow are too many for a single value, and of every piece off the front the reader asks for more. -/
def SelfDelimiting (α : Type) [WordForm α] [Storable α] : Prop :=
  ∀ v : α, Valid v →
    (∀ tail, (WordForm.read : ArtifactReader α) (WordForm.write v ++ tail) = .ok (v, tail)) ∧
    (∀ tail : Bytes, tail ≠ [] → (WordForm.decode (WordForm.write v ++ tail) :
      Except ArtifactError α) = .error (.trailingBytes tail.length)) ∧
    ∀ cut, cut <+: WordForm.write v → cut ≠ WordForm.write v →
      ∃ e, AsksForMore e ∧ (WordForm.decode cut : Except ArtifactError α) = .error e

theorem WordForm.selfDelimiting {α : Type} [WordForm α] [Storable α] [Exact α] [Steady α] :
    SelfDelimiting α :=
  fun _ h => ⟨takes_write h, fun _ htail => decode_write_append h htail,
    fun _ hpiece hne => decode_prefix h hpiece hne⟩

/-- Bytes behind an artifact are too many, a piece of its header is taken for no artifact, and of
every longer piece the reader asks for more. -/
def SelfDelimitingArtifact (α : Type) [Artifact α] [WordForm α] [Storable α] : Prop :=
  ∀ v : α, Valid v →
    (∀ tail : Bytes, tail ≠ [] → (Artifact.decode (Artifact.encode v ++ tail) :
      Except ArtifactError α) = .error (.trailingBytes tail.length)) ∧
    ∀ cut, cut <+: Artifact.encode v → cut ≠ Artifact.encode v →
      (cut.length < Artifact.headerLength →
        (Artifact.decode cut : Except ArtifactError α) = .error .badMagic) ∧
      (Artifact.headerLength ≤ cut.length →
        ∃ e, AsksForMore e ∧ (Artifact.decode cut : Except ArtifactError α) = .error e)

namespace Artifact

/-- A cut header is no header, whatever its bytes. -/
theorem stripHeader_of_short {kind : ArtifactKind} {bytes : Bytes}
    (h : bytes.length < headerLength) : stripHeader kind bytes = .error .badMagic := by
  have hhead : (bytes.take headerLength).length < headerLength :=
    Nat.lt_of_le_of_lt (List.length_take_le' ..) h
  rw [stripHeader, if_pos (.inl hhead)]

variable {α : Type} [Artifact α] [WordForm α]

theorem decode_header_append (body : Bytes) :
    (decode (header (kind α) ++ body) : Except ArtifactError α) = WordForm.decode body := by
  rw [decode, stripHeader_eq_ok_iff.mpr rfl]

theorem selfDelimiting [Storable α] [WordForm.Exact α] [WordForm.Steady α] :
    SelfDelimitingArtifact α := by
  intro v hvalid
  constructor
  · intro tail htail
    rw [encode, List.append_assoc, decode_header_append]
    exact WordForm.decode_write_append hvalid htail
  · intro cut hpiece hne
    constructor
    · intro hlength
      rw [decode, stripHeader_of_short hlength]
    · intro hlength
      rw [← length_header (kind α)] at hlength
      obtain ⟨body, rfl⟩ := List.prefix_of_prefix_length_le (List.prefix_append ..) hpiece hlength
      rw [encode, List.prefix_append_right_inj] at hpiece
      rw [encode, ne_eq, List.append_cancel_left_eq] at hne
      rw [decode_header_append]
      exact WordForm.decode_prefix hvalid hpiece hne

end Artifact

open WordForm (selfDelimiting)

/-- The word forms of all that is stored end by themselves, and so do artifacts. -/
theorem word_forms_are_self_delimiting :
    (SelfDelimiting Scalar ∧ SelfDelimiting Base ∧ SelfDelimiting Base2 ∧ SelfDelimiting G1 ∧
      SelfDelimiting G2) ∧
    (∀ (α : Type) [WordForm α] [Storable α] [WordForm.Exact α] [WordForm.Steady α],
      SelfDelimiting (List α)) ∧
    (SelfDelimiting (Matrix Scalar) ∧ SelfDelimiting (QuadraticProgram Scalar) ∧
      SelfDelimiting (Proof G1 G2) ∧ SelfDelimiting (VerifyingKey G1 G2) ∧
      SelfDelimiting (ProvingKey Scalar G1 G2)) ∧
    SelfDelimitingArtifact (Proof G1 G2) ∧ SelfDelimitingArtifact (VerifyingKey G1 G2) ∧
      SelfDelimitingArtifact (ProvingKey Scalar G1 G2) :=
  ⟨⟨selfDelimiting, selfDelimiting, selfDelimiting, selfDelimiting, selfDelimiting⟩,
    fun _ _ _ _ _ => selfDelimiting,
    ⟨selfDelimiting, selfDelimiting, selfDelimiting, selfDelimiting, selfDelimiting⟩,
    Artifact.selfDelimiting, Artifact.selfDelimiting, Artifact.selfDelimiting⟩

/-- A matrix that is cut inside its only coefficient, and a hollow key with a byte behind it or without
the last byte of its header. -/
theorem word_forms_are_self_delimiting_samples :
    (∃ e, AsksForMore e ∧
        (WordForm.decode ((WordForm.write (⟨[[(3, 1)]], 4⟩ : Matrix Scalar)).take 20) :
        Except ArtifactError (Matrix Scalar)) = .error e) ∧
      (Artifact.decode (Artifact.encode
        (⟨.infinity, .infinity, .infinity, .infinity, []⟩ : VerifyingKey G1 G2) ++ [0]) :
        Except ArtifactError (VerifyingKey G1 G2)) = .error (.trailingBytes 1) ∧
      (Artifact.decode ((Artifact.encode
        (⟨.infinity, .infinity, .infinity, .infinity, []⟩ : VerifyingKey G1 G2)).take 6) :
        Except ArtifactError (VerifyingKey G1 G2)) = .error .badMagic := by
  obtain ⟨-, -, ⟨hmatrix, -, -, -, -⟩, -, hkey, -⟩ := word_forms_are_self_delimiting
  constructor
  · have hvalid : Valid (⟨[[(3, 1)]], 4⟩ : Matrix Scalar) := by
      simp [Valid, Storable.Members, Storable.CountsFit, countLimit]
    obtain ⟨-, -, hcut⟩ := hmatrix _ hvalid
    exact hcut _ (List.take_prefix ..) fun h => absurd (congrArg List.length h) (by decide)
  · have hvalid : Valid (⟨.infinity, .infinity, .infinity, .infinity, []⟩ : VerifyingKey G1 G2) :=
      ⟨⟨rfl, rfl, rfl, rfl, by simp [Storable.Members]⟩, trivial, trivial, trivial, trivial, by decide,
        by simp⟩
    obtain ⟨hcontinued, hcut⟩ := hkey _ hvalid
    refine ⟨hcontinued [0] (List.cons_ne_nil _ _), (hcut _ (List.take_prefix ..) ?_).1 (by decide)⟩
    exact fun h => absurd (congrArg List.length h) (by decide +kernel)

end CircuitProof
