import CircuitProof.Encoding.ProofText
import CircuitProof.Proofs.Contract.Coordinates
import CircuitProof.Proofs.Encoding.Artifact
import CircuitProof.Proofs.Json.Value

/-!
# Proofs and inputs read back from their text

The text of a proof has the words of its word form, and the JSON of a text has its parts, so whoever
reads the JSON of a stored proof has the proof again. The same holds of lists of inputs.
-/

namespace CircuitProof

open WordForm (WordModulus)

/-! ## Decimal words -/

theorem wordOfDecimal?_decimal {n : Nat} (h : n < Nat.pow 256 wordWidth) :
    wordOfDecimal? (decimal n) = some (bigEndian wordWidth n) := by
  rw [wordOfDecimal?, ofDecimal?_decimal]
  exact if_pos h

/-- No word is lost on the way through its decimal text. -/
theorem wordOfDecimal?_decimalOfWord {word : Bytes} (h : word.length = wordWidth) :
    wordOfDecimal? (decimalOfWord word) = some word := by
  rw [decimalOfWord, wordOfDecimal?_decimal (h ▸ ofBigEndian_lt word), ← h, bigEndian_ofBigEndian]

theorem Residue.ofBigEndian_toWord {p : Nat} [WordModulus p] (a : Residue p) :
    ofBigEndian a.toWord = a.val := by
  have hfits : a.val < Nat.pow 256 wordWidth := Nat.lt_of_lt_of_le a.lt WordModulus.le
  rw [toWord, ofBigEndian_bigEndian, Nat.mod_eq_of_lt hfits]

theorem Residue.ofWord?_toWord {p : Nat} [Modulus p] [WordModulus p] (a : Residue p) :
    ofWord? a.toWord = some a :=
  (ofWord?_eq_some_iff a.length_toWord).mpr a.ofBigEndian_toWord

theorem Residue.ofDecimal?_toDecimal {p : Nat} [Modulus p] [WordModulus p] (a : Residue p) :
    (ofDecimal? a.toDecimal : Option (Residue p)) = some a := by
  rw [ofDecimal?, toDecimal, wordOfDecimal?_decimalOfWord a.length_toWord, Option.bind_some,
    ofWord?_toWord]

/-- Written inputs are read back in their order. -/
theorem ofInputText_inputText (inputs : List Scalar) :
    ofInputText (inputText inputs) = .ok inputs := by
  induction inputs with
  | nil => rfl
  | cons x inputs ih =>
    rw [inputText, List.map_cons, ofInputText, Residue.ofDecimal?_toDecimal]
    change (ofInputText (inputText inputs)).map (x :: ·) = _
    rw [ih]
    rfl

namespace ProofText

/-- The words of a byte string of whole words have its bytes. -/
theorem bytesOfWords_wordAt {count : Nat} {bytes : Bytes} (h : bytes.length = count * wordWidth) :
    bytesOfWords ((List.range count).map (wordAt bytes)) = .ok bytes := by
  induction count generalizing bytes with
  | zero =>
    rw [Nat.zero_mul, List.length_eq_zero_iff] at h
    rw [h]
    rfl
  | succ count ih =>
    have hfirst : (bytes.take wordWidth).length = wordWidth := by
      rw [List.length_take, h, Nat.succ_mul]
      omega
    have hrest : (bytes.drop wordWidth).length = count * wordWidth := by
      rw [List.length_drop, h, Nat.succ_mul]
      omega
    have hlater : ∀ i, wordAt bytes (i + 1) = wordAt (bytes.drop wordWidth) i := by
      intro i
      rw [wordAt, wordAt, List.drop_drop, Nat.succ_mul, Nat.add_comm]
    have hzero : wordAt bytes 0 = decimalOfWord (bytes.take wordWidth) := by
      rw [wordAt, Nat.zero_mul, List.drop_zero]
    rw [List.range_succ_eq_map, List.map_cons, List.map_map, hzero, bytesOfWords,
      wordOfDecimal?_decimalOfWord hfirst]
    have hmap : (List.range count).map (wordAt bytes ∘ Nat.succ) =
        (List.range count).map (wordAt (bytes.drop wordWidth)) :=
      List.map_congr_left fun i _ => hlater i
    dsimp only
    rw [hmap, ih hrest]
    exact congrArg Except.ok (List.take_append_drop wordWidth bytes)

/-- A proof of members has its text for itself alone. -/
theorem toProof_ofProof {proof : Proof G1 G2} (h : Storable.Members proof) :
    (ofProof proof).toProof = .ok proof := by
  have hlength : (WordForm.write proof).length = 8 * wordWidth := by
    rw [Contract.write_eq_proofCoordinates, List.length_flatMap]
    simp only [length_bigEndian, List.map_const', Contract.length_proofCoordinates,
      List.sum_replicate_nat]
  have hwords : (ofProof proof).words = (List.range 8).map (wordAt (WordForm.write proof)) := rfl
  rw [toProof, hwords, bytesOfWords_wordAt hlength]
  exact (WordForm.Exact.oneForm _ proof).mpr ⟨rfl, h, trivial, trivial, trivial⟩

/-! ## JSON -/

open Json (Spells Blank body closing quoteMark colon closeBrace openBrace spells_layOut spells_quoted)

theorem spells_coordinates {margin : String} (hmargin : Blank (utf8 margin)) (p : String × String) :
    Spells coordinates (utf8 (Json.writeStrings margin [p.1, p.2])) p :=
  spells_layOut hmargin (spells_quoted p.1) (spells_quoted p.2)

/-- An entry of a record: its key, a colon, a blank and its value. -/
def entry (key : String) (value : Bytes) : Bytes :=
  quoteMark :: (closing key ++ (colon :: 0x20 :: value))

theorem utf8_entry (key value : String) :
    utf8 (Json.quoted key ++ ": " ++ value) = entry key (utf8 value) := by
  have hcolon : utf8 ": " = [colon, 0x20] := by decide
  rw [utf8_append, utf8_append, Json.utf8_quoted, hcolon, List.append_assoc, List.cons_append]
  rfl

section
variable {α : Type} {value : Json.Parser α} {bytes : Bytes} {x : α}

/-- A part is taken the first time that its key occurs. -/
theorem readPart_none (h : Spells value bytes x) (rest : Bytes) :
    readPart none value (colon :: 0x20 :: (bytes ++ rest)) = .ok (some x, rest) := by
  have hvalue : value (0x20 :: (bytes ++ rest)) = .ok (x, rest) :=
    h.reads (show Blank [0x20] from rfl) rest
  rw [readPart, Reader.bind_of_ok (Json.keyEnd_eq _), Reader.bind_of_ok hvalue]
  rfl

end

section
variable {t : ProofText} {a b c gap margin : Bytes}

/-- The three entries of a record, up to its closing brace. -/
theorem readEntries_eq (hgap : Blank gap) (hmargin : Blank margin) (ha : Spells coordinates a t.a)
    (hb : Spells (Json.pair coordinates) b t.b) (hc : Spells coordinates c t.c) {fuel : Nat}
    (hfuel : 4 ≤ fuel) (rest : Bytes) :
    readEntries fuel true ⟨none, none, none⟩
        (body gap margin [entry "A" a, entry "B" b, entry "C" c] ++ closeBrace :: rest) =
      .ok (⟨some t.a, some t.b, some t.c⟩, closeBrace :: rest) := by
  obtain ⟨fuel, rfl⟩ := Nat.exists_eq_add_of_le' hfuel
  simp only [body, Json.later_cons, Json.later_nil, entry, List.append_assoc, List.cons_append,
    List.nil_append]
  rw [readEntries, Reader.bind_of_ok (Json.nextKey?_first hgap "A" _)]
  dsimp only
  rw [if_pos rfl, Reader.bind_of_ok (readPart_none ha _), readEntries,
    Reader.bind_of_ok (Json.nextKey?_later hgap "B" _)]
  dsimp only
  rw [if_neg (by decide), if_pos rfl, Reader.bind_of_ok (readPart_none hb _), readEntries,
    Reader.bind_of_ok (Json.nextKey?_later hgap "C" _)]
  dsimp only
  rw [if_neg (by decide), if_neg (by decide), if_pos rfl, Reader.bind_of_ok (readPart_none hc _),
    readEntries, Reader.bind_of_ok (Json.nextKey?_end hmargin false rest)]
  rfl

/-- A record of three written parts is written. -/
theorem spells_record (hgap : Blank gap) (hmargin : Blank margin) (ha : Spells coordinates a t.a)
    (hb : Spells (Json.pair coordinates) b t.b) (hc : Spells coordinates c t.c) :
    Spells value (openBrace ::
      (body gap margin [entry "A" a, entry "B" b, entry "C" c] ++ [closeBrace])) t where
  head := ⟨openBrace, _, rfl, rfl, by decide⟩
  reads hblanks rest := by
    have hlength : 4 ≤ (body gap margin [entry "A" a, entry "B" b, entry "C" c] ++
        closeBrace :: rest).length + 1 := by
      simp only [body, Json.later_cons, entry, List.length_append, List.length_cons]
      omega
    rw [List.cons_append, List.append_assoc, List.singleton_append, value,
      Reader.bind_of_ok (Json.peek_eq hblanks rfl _), if_pos rfl,
      Reader.bind_of_ok (Json.expect_eq _ _), record]
    refine (Reader.bind_of_ok (readEntries_eq hgap hmargin ha hb hc hlength rest)).trans ?_
    have hend : Json.close closeBrace (closeBrace :: rest) = .ok ((), rest) :=
      Json.close_eq Json.blank_nil rfl rest
    exact Reader.bind_of_ok hend

end

/-- The JSON of a text is the text. -/
theorem spells_toJson (t : ProofText) : Spells value (utf8 t.toJson) t := by
  have hopen : utf8 "\x7b" = [openBrace] := by decide
  have hclose : utf8 "\x7d" = [closeBrace] := by decide
  have hblank : ∀ margin ∈ ["", "  ", "    "], Blank (utf8 margin) := by decide
  have hnone := hblank "" (by decide)
  have htwo := hblank "  " (by decide)
  have hfour := hblank "    " (by decide)
  rw [toJson, Json.utf8_layOut, hopen, hclose]
  simp only [List.map_cons, List.map_nil, utf8_entry]
  exact spells_record (Json.blank_gapOf hnone) (Json.blank_marginOf hnone)
    (spells_coordinates htwo t.a)
    (spells_layOut htwo (spells_coordinates hfour t.b.1) (spells_coordinates hfour t.b.2))
    (spells_coordinates htwo t.c)

/-- The layout in lines and indents is blank space to the reader. -/
theorem ofJson_toJson (t : ProofText) : ofJson (utf8 t.toJson) = .ok t :=
  (spells_toJson t).document_eq

end ProofText

theorem stringsOfJson_stringsToJson (items : List String) :
    stringsOfJson (utf8 (stringsToJson items)) = .ok items :=
  (Json.spells_writeStrings (by decide) items).document_eq

end CircuitProof
