import Mathlib.Data.List.Forall2
import CircuitProof.Json.Value
import CircuitProof.Proofs.Json.Text

/-!
# Laid out values in JSON read back

A written value is read whatever blanks stand in front of it and whatever follows. So the items of a
list that is laid out one to a line are read one after the other, each from behind the comma and the
blanks before it.
-/

namespace CircuitProof

namespace Json

variable {α : Type}

def Blank (bytes : Bytes) : Prop := bytes.all isBlank = true

instance (bytes : Bytes) : Decidable (Blank bytes) :=
  inferInstanceAs (Decidable (bytes.all isBlank = true))

theorem blank_nil : Blank [] := rfl

/-- The bytes are a written value: the parser skips blanks in front of them, reads all of them and
looks at nothing behind. -/
structure Spells (p : Parser α) (bytes : Bytes) (a : α) : Prop where
  head : ∃ b more, bytes = b :: more ∧ isBlank b = false ∧ b ≠ closeBracket
  reads : ∀ {blanks}, Blank blanks → ∀ rest, p (blanks ++ (bytes ++ rest)) = .ok (a, rest)

section
variable {p : Parser α} {bytes blanks : Bytes} {a : α}

theorem Spells.reads_here (h : Spells p bytes a) (rest : Bytes) : p (bytes ++ rest) = .ok (a, rest) :=
  h.reads blank_nil rest

/-- A written value is a whole document. -/
theorem Spells.document_eq (h : Spells p bytes a) : document p bytes = .ok a := by
  have hreads := h.reads_here []
  rw [List.append_nil] at hreads
  simp only [document, hreads]
  rfl

theorem peek_eq {b : UInt8} (hblanks : Blank blanks) (hb : isBlank b = false) (more : Bytes) :
    peek (blanks ++ b :: more) = .ok (b, b :: more) := by
  have hdrop : (blanks ++ b :: more).dropWhile isBlank = b :: more := by
    rw [List.dropWhile_append_of_pos (List.all_eq_true.mp hblanks), List.dropWhile_cons, hb]
    rfl
  simp only [peek, hdrop]

theorem peek_here {b : UInt8} (hb : isBlank b = false) (more : Bytes) :
    peek (b :: more) = .ok (b, b :: more) := peek_eq blank_nil hb more

theorem expect_eq (b : UInt8) (rest : Bytes) : expect b (b :: rest) = .ok ((), rest) := by
  rw [expect, Reader.bind_of_ok (a := b) rfl, if_pos rfl]
  rfl

theorem spells_quoted (s : String) : Spells string (utf8 (quoted s)) s where
  head := ⟨quoteMark, closing s, utf8_quoted s, rfl, by decide⟩
  reads hblanks rest := by
    rw [utf8_quoted, List.cons_append, string, Reader.bind_of_ok (peek_eq hblanks rfl _), if_pos rfl,
      Reader.bind_of_ok (expect_eq quoteMark _), text_closing]

/-! ## Items -/

/-- The items of a list behind the first one, each behind a comma and a gap. -/
def later (gap : Bytes) (items : List Bytes) : Bytes := items.flatMap fun x => comma :: (gap ++ x)

/-- What stands between the brackets of a list: a gap before each item and a margin behind the last.
-/
def body (gap margin : Bytes) : List Bytes → Bytes
  | [] => []
  | x :: xs => gap ++ x ++ later gap xs ++ margin

theorem later_nil (gap : Bytes) : later gap [] = [] := rfl

theorem later_cons (gap x : Bytes) (xs : List Bytes) :
    later gap (x :: xs) = comma :: (gap ++ (x ++ later gap xs)) := by
  rw [later, List.flatMap_cons, List.cons_append, List.append_assoc]
  rfl

theorem length_le_length_later (gap : Bytes) (items : List Bytes) :
    items.length ≤ (later gap items).length := by
  induction items with
  | nil => exact Nat.zero_le _
  | cons x xs ih =>
    rw [later_cons, List.length_cons, List.length_cons, List.length_append, List.length_append]
    omega

variable {gap margin : Bytes}

theorem hasNext_first (hgap : Blank gap) (h : Spells p bytes a) (rest : Bytes) :
    hasNext true (gap ++ (bytes ++ rest)) = .ok (true, bytes ++ rest) := by
  obtain ⟨b, more, rfl, hb, hclose⟩ := h.head
  rw [hasNext, List.cons_append, Reader.bind_of_ok (peek_eq hgap hb _), if_neg hclose, if_pos rfl]
  rfl

theorem hasNext_later (hgap : Blank gap) (h : Spells p bytes a) (rest : Bytes) :
    hasNext false (comma :: (gap ++ (bytes ++ rest))) = .ok (true, bytes ++ rest) := by
  obtain ⟨b, more, rfl, hb, hclose⟩ := h.head
  rw [hasNext, Reader.bind_of_ok (peek_here rfl _), if_neg (by decide), if_neg (by decide), if_pos rfl,
    Reader.bind_of_ok (expect_eq comma _), List.cons_append, Reader.bind_of_ok (peek_eq hgap hb _),
    if_neg hclose]
  rfl

theorem hasNext_end (hmargin : Blank margin) (first : Bool) (rest : Bytes) :
    hasNext first (margin ++ closeBracket :: rest) = .ok (false, closeBracket :: rest) := by
  rw [hasNext, Reader.bind_of_ok (peek_eq hmargin rfl _), if_pos rfl]
  rfl

theorem close_eq {mark : UInt8} (hmargin : Blank margin) (hmark : isBlank mark = false)
    (rest : Bytes) : close mark (margin ++ mark :: rest) = .ok ((), rest) := by
  rw [close, Reader.bind_of_ok (peek_eq hmargin hmark _), expect_eq]

/-! ## Lists -/

variable {xs : List Bytes} {as : List α}

/-- The items behind the first one. -/
theorem itemsExactly_later (hgap : Blank gap) (h : List.Forall₂ (Spells p) xs as) (rest : Bytes) :
    itemsExactly p as.length false (later gap xs ++ rest) = .ok (as, rest) := by
  induction h with
  | nil => rfl
  | @cons x a xs as hx hxs ih =>
    rw [later_cons, List.cons_append, List.append_assoc, List.append_assoc, List.length_cons,
      itemsExactly, Reader.bind_of_ok (hasNext_later hgap hx _), if_pos rfl,
      Reader.bind_of_ok (hx.reads_here _), Reader.bind_of_ok ih]
    rfl

/-- The items behind the first one, up to the closing bracket. -/
theorem itemsWithin_later (hgap : Blank gap) (hmargin : Blank margin)
    (h : List.Forall₂ (Spells p) xs as) {fuel : Nat} (hfuel : xs.length < fuel) (rest : Bytes) :
    itemsWithin p fuel false (later gap xs ++ (margin ++ closeBracket :: rest)) =
      .ok (as, closeBracket :: rest) := by
  induction h generalizing fuel with
  | nil =>
    cases fuel with
    | zero => exact absurd hfuel (Nat.not_lt_zero _)
    | succ fuel =>
      rw [later_nil, List.nil_append, itemsWithin,
        Reader.bind_of_ok (hasNext_end hmargin false rest), if_neg Bool.false_ne_true]
      rfl
  | @cons x a xs as hx hxs ih =>
    cases fuel with
    | zero => exact absurd hfuel (Nat.not_lt_zero _)
    | succ fuel =>
      rw [later_cons, List.cons_append, List.append_assoc, List.append_assoc, itemsWithin,
        Reader.bind_of_ok (hasNext_later hgap hx _), if_pos rfl, Reader.bind_of_ok (hx.reads_here _),
        Reader.bind_of_ok (ih (Nat.lt_of_succ_lt_succ hfuel))]
      rfl

/-- A list of written values is written. -/
theorem spells_list (hgap : Blank gap) (hmargin : Blank margin) (h : List.Forall₂ (Spells p) xs as) :
    Spells (list p) (openBracket :: (body gap margin xs ++ [closeBracket])) as where
  head := ⟨openBracket, _, rfl, rfl, by decide⟩
  reads hblanks rest := by
    rw [List.cons_append, List.append_assoc, List.singleton_append, list,
      Reader.bind_of_ok (peek_eq hblanks rfl _), if_pos rfl, Reader.bind_of_ok (expect_eq _ _)]
    have hitems : ∀ {fuel : Nat}, xs.length < fuel →
        itemsWithin p fuel true (body gap margin xs ++ closeBracket :: rest) =
          .ok (as, closeBracket :: rest) := by
      intro fuel hfuel
      cases fuel with
      | zero => exact absurd hfuel (Nat.not_lt_zero _)
      | succ fuel =>
        cases h with
        | nil =>
          rw [itemsWithin, body, Reader.bind_of_ok (hasNext_end blank_nil true rest),
            if_neg Bool.false_ne_true]
          rfl
        | @cons x a xs as hx hxs =>
          have hlater := itemsWithin_later hgap hmargin hxs (Nat.lt_of_succ_lt_succ hfuel) rest
          rw [body, List.append_assoc, List.append_assoc, List.append_assoc, itemsWithin,
            Reader.bind_of_ok (hasNext_first hgap hx _), if_pos rfl,
            Reader.bind_of_ok (hx.reads_here _), Reader.bind_of_ok hlater]
          rfl
    have hlength : xs.length < (body gap margin xs ++ closeBracket :: rest).length + 1 := by
      rw [List.length_append]
      cases xs with
      | nil => exact Nat.succ_pos _
      | cons x xs =>
        have hlater := length_le_length_later gap xs
        rw [body, List.length_append, List.length_append, List.length_cons, List.length_cons]
        omega
    refine (Reader.bind_of_ok (hitems hlength)).trans ?_
    have hclose : close closeBracket (closeBracket :: rest) = .ok ((), rest) :=
      close_eq blank_nil rfl rest
    rw [Reader.bind_of_ok hclose]
    rfl

/-- A pair of written values is written. -/
theorem spells_pair (hgap : Blank gap) (hmargin : Blank margin) {x y : Bytes} {b : α}
    (hx : Spells p x a) (hy : Spells p y b) :
    Spells (pair p) (openBracket :: (body gap margin [x, y] ++ [closeBracket])) (a, b) where
  head := ⟨openBracket, _, rfl, rfl, by decide⟩
  reads hblanks rest := by
    have hlater : itemsExactly p 1 false (later gap [y] ++ (margin ++ closeBracket :: rest)) =
        .ok ([b], margin ++ closeBracket :: rest) :=
      itemsExactly_later hgap (.cons hy .nil) _
    have hitems : itemsExactly p 2 true (body gap margin [x, y] ++ closeBracket :: rest) =
        .ok ([a, b], margin ++ closeBracket :: rest) := by
      rw [body, List.append_assoc, List.append_assoc, List.append_assoc, itemsExactly,
        Reader.bind_of_ok (hasNext_first hgap hx _), if_pos rfl, Reader.bind_of_ok (hx.reads_here _),
        Reader.bind_of_ok hlater]
      rfl
    rw [List.cons_append, List.append_assoc, List.singleton_append, pair,
      Reader.bind_of_ok (peek_eq hblanks rfl _), if_pos rfl, Reader.bind_of_ok (expect_eq _ _),
      Reader.bind_of_ok hitems, Reader.bind_of_ok (close_eq hmargin rfl rest)]
    rfl

/-! ## Entries of records -/

theorem nextKey?_first (hgap : Blank gap) (key : String) (rest : Bytes) :
    nextKey? true (gap ++ (quoteMark :: (closing key ++ rest))) = .ok (some key, rest) := by
  rw [nextKey?, Reader.bind_of_ok (peek_eq hgap rfl _), if_neg (by decide)]
  change (peek >>= _) (quoteMark :: _) = _
  rw [Reader.bind_of_ok (peek_here rfl _), if_pos rfl, Reader.bind_of_ok (expect_eq _ _),
    Reader.bind_of_ok (text_closing key rest)]
  rfl

theorem nextKey?_later (hgap : Blank gap) (key : String) (rest : Bytes) :
    nextKey? false (comma :: (gap ++ (quoteMark :: (closing key ++ rest)))) =
      .ok (some key, rest) := by
  rw [nextKey?, Reader.bind_of_ok (peek_here rfl _), if_neg (by decide)]
  change (expect comma >>= _) (comma :: _) = _
  rw [Reader.bind_of_ok (expect_eq _ _)]
  change (peek >>= _) (gap ++ _) = _
  rw [Reader.bind_of_ok (peek_eq hgap rfl _), if_pos rfl, Reader.bind_of_ok (expect_eq _ _),
    Reader.bind_of_ok (text_closing key rest)]
  rfl

theorem nextKey?_end (hmargin : Blank margin) (first : Bool) (rest : Bytes) :
    nextKey? first (margin ++ closeBrace :: rest) = .ok (none, closeBrace :: rest) := by
  rw [nextKey?, Reader.bind_of_ok (peek_eq hmargin rfl _), if_pos rfl]
  rfl

theorem keyEnd_eq (rest : Bytes) : keyEnd (colon :: rest) = .ok ((), rest) := by
  rw [keyEnd, Reader.bind_of_ok (peek_here rfl _), expect_eq]

end

/-! ## Layout -/

/-- The blanks in front of an item whose list ends behind the margin. -/
def gapOf (margin : String) : Bytes := 0x0a :: (utf8 margin ++ [0x20, 0x20])

def marginOf (margin : String) : Bytes := 0x0a :: utf8 margin

/-- Gaps and margins are all that stands between the items. -/
theorem utf8_layOut (opening closing margin : String) (items : List String) :
    utf8 (layOut opening closing margin items) =
      utf8 opening ++ (body (gapOf margin) (marginOf margin) (items.map utf8) ++ utf8 closing) := by
  have hline : utf8 "\n" = [0x0a] := by decide
  have hcomma : utf8 ",\n" = [comma, 0x0a] := by decide
  have hindent : utf8 "  " = [0x20, 0x20] := by decide
  cases items with
  | nil => rw [layOut, if_pos rfl, utf8_append]; rfl
  | cons item items =>
    have hlater : (items.map fun item => margin ++ "  " ++ item).flatMap
        (fun item => utf8 ",\n" ++ utf8 item) = later (gapOf margin) (items.map utf8) := by
      rw [later, List.flatMap_map, List.flatMap_map]
      simp only [hcomma, hindent, utf8_append, gapOf, List.cons_append, List.nil_append]
    rw [layOut, if_neg (List.cons_ne_nil _ _), List.map_cons, List.map_cons, body]
    simp only [utf8_append, utf8_intercalate, hlater, hline, hindent, gapOf, marginOf,
      List.append_assoc, List.cons_append, List.nil_append]

theorem blank_gapOf {margin : String} (h : Blank (utf8 margin)) : Blank (gapOf margin) := by
  rw [Blank, gapOf, List.all_cons, List.all_append, h]
  rfl

theorem blank_marginOf {margin : String} (h : Blank (utf8 margin)) : Blank (marginOf margin) := by
  rw [Blank, marginOf, List.all_cons, h]
  rfl

theorem utf8_brackets (margin : String) (items : List String) :
    utf8 (layOut "[" "]" margin items) = openBracket ::
      (body (gapOf margin) (marginOf margin) (items.map utf8) ++ [closeBracket]) := by
  have hopen : utf8 "[" = [openBracket] := by decide
  have hclose : utf8 "]" = [closeBracket] := by decide
  rw [utf8_layOut, hopen, hclose]
  rfl

/-- A pair that is laid out. -/
theorem spells_layOut {p : Parser α} {margin x y : String} {a b : α} (hmargin : Blank (utf8 margin))
    (hx : Spells p (utf8 x) a) (hy : Spells p (utf8 y) b) :
    Spells (pair p) (utf8 (layOut "[" "]" margin [x, y])) (a, b) := by
  rw [utf8_brackets]
  exact spells_pair (blank_gapOf hmargin) (blank_marginOf hmargin) hx hy

/-- A list in lines is read back item by item. -/
theorem spells_writeStrings {margin : String} (hmargin : Blank (utf8 margin)) (items : List String) :
    Spells (list string) (utf8 (writeStrings margin items)) items := by
  rw [writeStrings, utf8_brackets, List.map_map]
  refine spells_list (blank_gapOf hmargin) (blank_marginOf hmargin) ?_
  induction items with
  | nil => exact .nil
  | cons item items ih => exact .cons (spells_quoted item) ih

end Json

end CircuitProof
