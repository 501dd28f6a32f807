import CircuitProof.Encoding.Artifact
import CircuitProof.Proofs.Encoding.WordForm

/-!
# One encoding for each artifact

A header is seven fixed bytes, so a byte string with a body behind the header of its kind is the only
one that is taken for an artifact with that body. With the word forms of the bodies this makes the
encodings of the values that can be stored exactly the byte strings that decode, each to its value.
-/

namespace CircuitProof

open Storable (Members CountsFit Valid countLimit)

/-- The byte strings that decode to a value are its word form, if the value is valid, and none
otherwise. -/
def OneForm (α : Type) [WordForm α] [Storable α] : Prop :=
  ∀ (bytes : Bytes) (v : α), WordForm.decode bytes = .ok v ↔ bytes = WordForm.write v ∧ Valid v

/-- The byte strings that decode to an artifact are its encoding, if it is valid, and none
otherwise. -/
def OneEncoding (α : Type) [Artifact α] [WordForm α] [Storable α] : Prop :=
  ∀ (bytes : Bytes) (v : α), Artifact.decode bytes = .ok v ↔ bytes = Artifact.encode v ∧ Valid v

theorem WordForm.Exact.oneForm {α : Type} [WordForm α] [Storable α] [Exact α] : OneForm α := by
  intro bytes v
  rw [decode, Reader.whole_eq_ok_iff, Exact.reads, List.append_nil, and_comm]

namespace Artifact

theorem length_header (kind : ArtifactKind) : (header kind).length = headerLength := by
  cases kind <;> rfl

/-- A header is told by its magic, its version and its tag. -/
theorem eq_header_iff {kind : ArtifactKind} {head : Bytes} (hlength : head.length = headerLength) :
    head = header kind ↔ head.take magic.length = magic ∧
      ofBigEndian ((head.drop magic.length).take 2) = formatVersion ∧
      ofBigEndian (head.drop (magic.length + 2)) = kind.tag := by
  have htag : kind.tag < Nat.pow 256 1 := by cases kind <;> decide
  have hversion : ((head.drop magic.length).take 2).length = 2 := by
    rw [List.length_take, List.length_drop, hlength]
    rfl
  have hlast : (head.drop (magic.length + 2)).length = 1 := by
    rw [List.length_drop, hlength]
    rfl
  rw [ofBigEndian_eq_iff hversion (by decide), ofBigEndian_eq_iff hlast htag]
  constructor
  · rintro rfl
    cases kind <;> exact ⟨rfl, rfl, rfl⟩
  · rintro ⟨hmagic, hversion, htag⟩
    have hsplit : head = head.take magic.length ++ ((head.drop magic.length).take 2 ++
        head.drop (magic.length + 2)) := by
      rw [← List.drop_drop, List.take_append_drop, List.take_append_drop]
    rw [hsplit, hmagic, hversion, htag]
    cases kind <;> rfl

/-- What stands behind a header of the expected kind, and nothing else, is a body. -/
theorem stripHeader_eq_ok_iff {kind : ArtifactKind} {bytes body : Bytes} :
    stripHeader kind bytes = .ok body ↔ bytes = header kind ++ body := by
  constructor
  · intro h
    simp only [stripHeader] at h
    split at h
    · cases h
    · next hmagic =>
      obtain ⟨hlong, hmagic⟩ := not_or.mp hmagic
      split at h
      · cases h
      · next hversion =>
        split at h
        · cases h
        · next htag =>
          cases h
          have hlength : (bytes.take headerLength).length = headerLength :=
            Nat.le_antisymm (by rw [List.length_take]; exact Nat.min_le_left ..)
              (Nat.le_of_not_lt hlong)
          have hhead := (eq_header_iff hlength).mpr
            ⟨Decidable.not_not.mp hmagic, Decidable.not_not.mp hversion, Decidable.not_not.mp htag⟩
          rw [← hhead, List.take_append_drop]
  · rintro rfl
    have htake : (header kind ++ body).take headerLength = header kind := by
      rw [← length_header kind, List.take_left]
    obtain ⟨hmagic, hversion, htag⟩ := (eq_header_iff (length_header kind)).mp rfl
    rw [stripHeader]
    simp only [htake, length_header, hmagic, hversion, htag, Nat.lt_irrefl, ne_eq,
      not_true_eq_false, or_self, if_false]
    rw [← length_header kind, List.drop_left]

/-- A header of fixed length in front of a word form leaves one encoding of each value. -/
theorem oneEncoding {α : Type} [Artifact α] [WordForm α] [Storable α] [WordForm.Exact α] :
    OneEncoding α := by
  intro bytes v
  rw [decode]
  cases hstrip : stripHeader (kind α) bytes with
  | error e =>
    refine ⟨fun h => (nomatch h), fun ⟨hbytes, _⟩ => ?_⟩
    rw [stripHeader_eq_ok_iff.mpr hbytes] at hstrip
    cases hstrip
  | ok body =>
    obtain rfl := stripHeader_eq_ok_iff.mp hstrip
    simp only [WordForm.Exact.oneForm body v, encode, List.append_cancel_left_eq]

end Artifact

open Artifact (oneEncoding)
open WordForm.Exact (oneForm)

/-- Artifacts have exactly one encoding each, and their parts have exactly one word form. -/
theorem artifacts_have_one_encoding :
    (OneEncoding (Proof G1 G2) ∧ OneEncoding (VerifyingKey G1 G2) ∧
      OneEncoding (ProvingKey Scalar G1 G2)) ∧
    (OneForm Scalar ∧ OneForm Base ∧ OneForm Base2 ∧ OneForm G1 ∧ OneForm G2) ∧
    (∀ (α : Type) [WordForm α] [Storable α] [WordForm.Exact α], OneForm (List α)) ∧
    OneForm (Matrix Scalar) ∧ OneForm (QuadraticProgram Scalar) :=
  ⟨⟨oneEncoding, oneEncoding, oneEncoding⟩, ⟨oneForm, oneForm, oneForm, oneForm, oneForm⟩,
    fun _ _ _ _ => oneForm, oneForm, oneForm⟩

/-- A list of an empty list reads back, and so does the proof of two generators and infinity. A matrix
with a column that takes a fifth byte does not: its word form is that of another matrix. -/
theorem artifacts_have_one_encoding_samples :
    WordForm.decode [0, 0, 0, 1, 0, 0, 0, 0] = .ok ([[]] : List (List Scalar)) ∧
      Artifact.decode (Artifact.encode (⟨G1.generator, G2.generator, .infinity⟩ : Proof G1 G2)) =
        .ok (⟨G1.generator, G2.generator, .infinity⟩ : Proof G1 G2) ∧
      WordForm.decode (WordForm.write (⟨[[(countLimit, 1)]], 2⟩ : Matrix Scalar)) ≠
        .ok (⟨[[(countLimit, 1)]], 2⟩ : Matrix Scalar) := by
  obtain ⟨⟨hproof, -, -⟩, -, hlist, hmatrix, -⟩ := artifacts_have_one_encoding
  refine ⟨?_, ?_, ?_⟩
  · have hvalid : Valid ([[]] : List (List Scalar)) :=
      ⟨by simp [Members], by decide, by simp [CountsFit, countLimit]⟩
    exact (hlist (List Scalar) _ _).mpr ⟨rfl, hvalid⟩
  · have hfirst : G1.isMember G1.generator = true := by decide +kernel
    have hsecond : G2.isMember G2.generator = true := by decide +kernel
    have hvalid : Valid (⟨G1.generator, G2.generator, .infinity⟩ : Proof G1 G2) :=
      ⟨⟨hfirst, hsecond, rfl⟩, trivial, trivial, trivial⟩
    exact (hproof _ _).mpr ⟨rfl, hvalid⟩
  · intro h
    obtain ⟨-, -, -, -, hrows⟩ := (hmatrix _ _).mp h
    obtain ⟨-, hterms⟩ := hrows _ List.mem_cons_self
    obtain ⟨hcolumn, -⟩ := hterms _ List.mem_cons_self
    exact Nat.lt_irrefl _ hcolumn

end CircuitProof
