import CircuitProof.Contract.Execution
import CircuitProof.Encoding.ProofText
import CircuitProof.Proofs.Encoding.WordForm

/-!
# Points and proofs by their coordinates

A contract takes a list of words for a point exactly when the words are the coordinates of a member. The
same holds for the proof that the decimal texts of eight words stand for, so the two readings of the
words of a proof come to the same points.
-/

namespace CircuitProof

open WordForm Storable

namespace Contract

/-! ## Points -/

/-- Exactly the coordinates of members are read, each as its own member. -/
theorem point₁?_eq_some_iff {p : G1} {x y : Nat} :
    point₁? G1.isMember x y = some p ↔ G1.isMember p = true ∧ coordinates₁ p = (x, y) := by
  rw [point₁?]
  by_cases hzero : x = 0 ∧ y = 0
  · obtain ⟨rfl, rfl⟩ := hzero
    rw [if_pos ⟨rfl, rfl⟩]
    constructor
    · rintro ⟨⟩
      exact ⟨G1.isMember_infinity, rfl⟩
    · rintro ⟨hmember, hcoordinates⟩
      cases p with
      | infinity => rfl
      | finite x y =>
        have hx : x = 0 := Residue.ext_val (congrArg Prod.fst hcoordinates)
        have hy : y = 0 := Residue.ext_val (congrArg Prod.snd hcoordinates)
        rw [hx, hy, G1.isMember_zero] at hmember
        cases hmember
  · rw [if_neg hzero]
    simp only [Option.bind_eq_bind, Option.bind_eq_some_iff, Residue.ofNat?_eq_some_iff]
    constructor
    · rintro ⟨x, rfl, y, rfl, h⟩
      split at h
      · next hmember =>
        cases h
        exact ⟨hmember, rfl⟩
      · cases h
    · rintro ⟨hmember, hcoordinates⟩
      cases p with
      | infinity =>
        cases hcoordinates
        exact absurd ⟨rfl, rfl⟩ hzero
      | finite x y =>
        cases hcoordinates
        exact ⟨x, rfl, y, rfl, if_pos hmember⟩

theorem point₁?_coordinates {p : G1} (h : G1.isMember p = true) :
    point₁? G1.isMember (coordinates₁ p).1 (coordinates₁ p).2 = some p :=
  point₁?_eq_some_iff.mpr ⟨h, rfl⟩

theorem point₂?_eq_some_iff {p : G2} {x₁ x₀ y₁ y₀ : Nat} :
    point₂? G2.isMember x₁ x₀ y₁ y₀ = some p ↔
      G2.isMember p = true ∧ coordinates₂ p = [x₁, x₀, y₁, y₀] := by
  rw [point₂?]
  by_cases hzero : x₁ = 0 ∧ x₀ = 0 ∧ y₁ = 0 ∧ y₀ = 0
  · obtain ⟨rfl, rfl, rfl, rfl⟩ := hzero
    rw [if_pos ⟨rfl, rfl, rfl, rfl⟩]
    constructor
    · rintro ⟨⟩
      exact ⟨G2.isMember_infinity, rfl⟩
    · rintro ⟨hmember, hcoordinates⟩
      cases p with
      | infinity => rfl
      | finite x y =>
        obtain ⟨⟨x₀, hx₀⟩, ⟨x₁, hx₁⟩⟩ := x
        obtain ⟨⟨y₀, hy₀⟩, ⟨y₁, hy₁⟩⟩ := y
        cases hcoordinates
        exact absurd hmember (Bool.eq_false_iff.mp G2.isMember_zero)
  · rw [if_neg hzero]
    simp only [Option.bind_eq_bind, Option.bind_eq_some_iff, Residue.ofNat?_eq_some_iff]
    constructor
    · rintro ⟨x₁, rfl, x₀, rfl, y₁, rfl, y₀, rfl, h⟩
      split at h
      · next hmember =>
        cases h
        exact ⟨hmember, rfl⟩
      · cases h
    · rintro ⟨hmember, hcoordinates⟩
      cases p with
      | infinity =>
        cases hcoordinates
        exact absurd ⟨rfl, rfl, rfl, rfl⟩ hzero
      | finite x y =>
        cases hcoordinates
        exact ⟨x.c1, rfl, x.c0, rfl, y.c1, rfl, y.c0, rfl, if_pos hmember⟩

/-! ## Words of points -/

theorem answer_lt (p : G1) : ∀ n ∈ answer p, n < baseModulus := by
  cases p with
  | infinity => decide
  | finite x y =>
    simp only [answer, coordinates₁, List.forall_mem_cons]
    exact ⟨x.lt, y.lt, nofun⟩

theorem coordinates₂_lt (p : G2) : ∀ n ∈ coordinates₂ p, n < baseModulus := by
  cases p with
  | infinity => decide
  | finite x y =>
    simp only [coordinates₂, List.forall_mem_cons]
    exact ⟨x.c1.lt, x.c0.lt, y.c1.lt, y.c0.lt, nofun⟩

theorem exists_coordinates₂ (p : G2) : ∃ x₁ x₀ y₁ y₀, coordinates₂ p = [x₁, x₀, y₁, y₀] := by
  cases p <;> exact ⟨_, _, _, _, rfl⟩

theorem write_eq_answer (p : G1) : write p = (answer p).flatMap (bigEndian wordWidth) := by
  cases p <;> simp [write, answer, coordinates₁, Residue.toWord]

theorem write_eq_coordinates₂ (p : G2) :
    write p = (coordinates₂ p).flatMap (bigEndian wordWidth) := by
  cases p with
  | infinity => rfl
  | finite x y => simp [write, coordinates₂, Residue.toWord]

/-- The coordinates of the points of a proof. -/
def proofCoordinates (proof : Proof G1 G2) : List Nat :=
  answer proof.a ++ coordinates₂ proof.b ++ answer proof.c

theorem length_proofCoordinates (proof : Proof G1 G2) : (proofCoordinates proof).length = 8 := by
  simp [proofCoordinates, answer]

theorem proofCoordinates_lt (proof : Proof G1 G2) :
    ∀ n ∈ proofCoordinates proof, n < baseModulus := by
  intro n hn
  rw [proofCoordinates, List.mem_append, List.mem_append] at hn
  obtain (ha | hb) | hc := hn
  · exact answer_lt _ n ha
  · exact coordinates₂_lt _ n hb
  · exact answer_lt _ n hc

theorem write_eq_proofCoordinates (proof : Proof G1 G2) :
    write proof = (proofCoordinates proof).flatMap (bigEndian wordWidth) := by
  change write proof.a ++ write proof.b ++ write proof.c = _
  rw [proofCoordinates, List.flatMap_append, List.flatMap_append, write_eq_answer,
    write_eq_coordinates₂, write_eq_answer]

/-! ## Words of proofs -/

/-- Lists of numbers that fit are told apart by their words. -/
theorem flatMap_bigEndian_inj {width : Nat} {ms ns : List Nat} (hlength : ms.length = ns.length)
    (hms : ∀ m ∈ ms, m < Nat.pow 256 width) (hns : ∀ n ∈ ns, n < Nat.pow 256 width) :
    ms.flatMap (bigEndian width) = ns.flatMap (bigEndian width) ↔ ms = ns := by
  refine ⟨fun h => ?_, congrArg _⟩
  induction ms generalizing ns with
  | nil => exact (List.length_eq_zero_iff.mp hlength.symm).symm
  | cons m ms ih =>
    cases ns with
    | nil => cases hlength
    | cons n ns =>
      rw [List.flatMap_cons, List.flatMap_cons] at h
      obtain ⟨hhead, htail⟩ := List.append_inj h (by simp)
      have hvalue := congrArg ofBigEndian hhead
      rw [ofBigEndian_bigEndian, ofBigEndian_bigEndian, Nat.mod_eq_of_lt (hms m List.mem_cons_self),
        Nat.mod_eq_of_lt (hns n List.mem_cons_self)] at hvalue
      rw [hvalue, ih (Nat.succ.inj hlength) (fun m hm => hms m (List.mem_cons_of_mem _ hm))
        (fun n hn => hns n (List.mem_cons_of_mem _ hn)) htail]

/-- Decimal texts of numbers are read as words unless a number is too large. -/
theorem bytesOfWords_decimal_eq_ok_iff {ns : List Nat} {bytes : Bytes} :
    ProofText.bytesOfWords (ns.map decimal) = .ok bytes ↔
      (∀ n ∈ ns, n < Nat.pow 256 wordWidth) ∧ bytes = ns.flatMap (bigEndian wordWidth) := by
  induction ns generalizing bytes with
  | nil => simp [ProofText.bytesOfWords, eq_comm]
  | cons n ns ih =>
    rw [List.map_cons, ProofText.bytesOfWords, wordOfDecimal?, ofDecimal?_decimal,
      List.forall_mem_cons]
    by_cases hn : n < Nat.pow 256 wordWidth
    · have hmap : ∀ result : Except ArtifactError Bytes,
          result.map (bigEndian wordWidth n ++ ·) = .ok bytes ↔
            ∃ rest, result = .ok rest ∧ bytes = bigEndian wordWidth n ++ rest := by
        intro result
        cases result <;> simp [Except.map, eq_comm]
      dsimp only
      rw [if_pos hn]
      dsimp only
      rw [hmap, List.flatMap_cons]
      constructor
      · rintro ⟨rest, hrest, hbytes⟩
        obtain ⟨hns, rfl⟩ := ih.mp hrest
        exact ⟨⟨hn, hns⟩, hbytes⟩
      · rintro ⟨⟨-, hns⟩, hbytes⟩
        exact ⟨_, ih.mpr ⟨hns, rfl⟩, hbytes⟩
    · dsimp only
      rw [if_neg hn]
      exact ⟨nofun, fun h => absurd h.1.1 hn⟩

namespace ProofWords

/-- The words in the order of the word form of a proof. -/
def toList (words : ProofWords) : List Nat :=
  [words.a.1, words.a.2, words.b.1.1, words.b.1.2, words.b.2.1, words.b.2.2, words.c.1, words.c.2]

/-- The words as decimal text. -/
def text (words : ProofWords) : ProofText where
  a := (decimal words.a.1, decimal words.a.2)
  b := ((decimal words.b.1.1, decimal words.b.1.2), (decimal words.b.2.1, decimal words.b.2.2))
  c := (decimal words.c.1, decimal words.c.2)

/-- The words with the second coordinate of the first point reduced modulo the base modulus. -/
def reduced (words : ProofWords) : ProofWords :=
  { words with a := (words.a.1, words.a.2 % baseModulus) }

/-- The proof whose points have the words for coordinates. -/
def proof? (words : ProofWords) : Option (Proof G1 G2) := do
  let a ← point₁? G1.isMember words.a.1 words.a.2
  let b ← point₂? G2.isMember words.b.1.1 words.b.1.2 words.b.2.1 words.b.2.2
  let c ← point₁? G1.isMember words.c.1 words.c.2
  some ⟨a, b, c⟩

/-- The eight words of a proof are the coordinates of its three points. -/
theorem proof?_eq_some_iff {words : ProofWords} {proof : Proof G1 G2} :
    words.proof? = some proof ↔ Members proof ∧ words.toList = proofCoordinates proof := by
  simp only [proof?, Option.bind_eq_bind, Option.bind_eq_some_iff, point₁?_eq_some_iff,
    point₂?_eq_some_iff, Option.some.injEq]
  constructor
  · rintro ⟨a, ⟨ha, ha'⟩, b, ⟨hb, hb'⟩, c, ⟨hc, hc'⟩, rfl⟩
    refine ⟨⟨ha, hb, hc⟩, ?_⟩
    rw [proofCoordinates, answer, answer, ha', hb', hc']
    rfl
  · rintro ⟨⟨ha, hb, hc⟩, hwords⟩
    obtain ⟨x₁, x₀, y₁, y₀, hcoordinates⟩ := exists_coordinates₂ proof.b
    rw [proofCoordinates, hcoordinates] at hwords
    simp only [toList, answer, List.cons_append, List.nil_append, List.cons.injEq] at hwords
    obtain ⟨ha₁, ha₂, hx₁, hx₀, hy₁, hy₀, hc₁, hc₂, -⟩ := hwords
    rw [ha₁, ha₂, hx₁, hx₀, hy₁, hy₀, hc₁, hc₂]
    exact ⟨_, ⟨ha, rfl⟩, _, ⟨hb, hcoordinates⟩, _, ⟨hc, rfl⟩, rfl⟩

/-- The decimal texts of words stand for the proof whose points have the words for coordinates. -/
theorem toProof_text_eq_ok_iff {words : ProofWords} {proof : Proof G1 G2} :
    words.text.toProof = .ok proof ↔ words.proof? = some proof := by
  have htoProof : words.text.toProof = .ok proof ↔
      ∃ bytes, ProofText.bytesOfWords (words.toList.map decimal) = .ok bytes ∧
        (decode bytes : Except ArtifactError (Proof G1 G2)) = .ok proof := by
    have hwords : words.text.words = words.toList.map decimal := rfl
    rw [ProofText.toProof, hwords]
    cases ProofText.bytesOfWords (words.toList.map decimal) <;> simp
  have hfits : baseModulus ≤ Nat.pow 256 wordWidth := WordModulus.le
  rw [htoProof, proof?_eq_some_iff]
  simp only [bytesOfWords_decimal_eq_ok_iff, decode, Reader.whole_eq_ok_iff, Exact.reads _ proof [],
    List.append_nil, write_eq_proofCoordinates]
  constructor
  · rintro ⟨_, ⟨hwords, rfl⟩, hvalid, hbytes⟩
    have hlength : words.toList.length = (proofCoordinates proof).length :=
      (length_proofCoordinates proof).symm
    exact ⟨hvalid.1, (flatMap_bigEndian_inj hlength hwords
      fun n hn => Nat.lt_of_lt_of_le (proofCoordinates_lt proof n hn) hfits).mp hbytes⟩
  · rintro ⟨hmembers, hwords⟩
    refine ⟨_, ⟨?_, rfl⟩, ⟨hmembers, trivial, trivial, trivial⟩, by rw [hwords]⟩
    rw [hwords]
    exact fun n hn => Nat.lt_of_lt_of_le (proofCoordinates_lt proof n hn) hfits

end ProofWords

end Contract

end CircuitProof
