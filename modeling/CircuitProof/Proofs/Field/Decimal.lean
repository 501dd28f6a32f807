import Mathlib.Data.List.Induction
import Mathlib.Data.Nat.Digits.Defs
import CircuitProof.Field.Word

/-!
# What a run of digits writes

The number of a text is the one that its digits have in base ten. Leading zeros do not count, and
without them a number has a single run of digits, the one in which it is written.
-/

namespace CircuitProof

def digitValue (c : Char) : Nat := c.toNat - '0'.toNat

/-- A nonempty run of ASCII digits. -/
def DigitRun (s : String) : Prop := s.toList ≠ [] ∧ ∀ c ∈ s.toList, c.isDigit = true

theorem digitRun_iff {s : String} :
    DigitRun s ↔ s.toList ≠ [] ∧ s.toList.all Char.isDigit = true := by
  rw [DigitRun, List.all_eq_true]

-- over the digits of the text: an instance search can find the one over all characters
instance (s : String) : Decidable (DigitRun s) := decidable_of_iff' _ digitRun_iff

def decimalValue (s : String) : Nat := Nat.ofDigits 10 (s.toList.reverse.map digitValue)

/-- The run of digits without its leading zeros, of which one is kept if nothing else is left. -/
def trimZeros (s : String) : String :=
  match s.toList.dropWhile (· = '0') with
  | [] => "0"
  | digits => String.ofList digits

/-! ## Digits -/

theorem toNat_of_isDigit {c : Char} (h : c.isDigit = true) : 48 ≤ c.toNat ∧ c.toNat ≤ 57 := by
  simpa [Char.isDigit, UInt32.le_iff_toNat_le] using h

theorem digitValue_lt {c : Char} (h : c.isDigit = true) : digitValue c < 10 := by
  have hbounds := toNat_of_isDigit h
  have hzero : '0'.toNat = 48 := rfl
  rw [digitValue]
  omega

theorem digitChar_digitValue {c : Char} (h : c.isDigit = true) :
    Nat.digitChar (digitValue c) = c := by
  obtain ⟨hge, -⟩ := toNat_of_isDigit h
  have hzero : '0'.toNat = 48 := rfl
  apply Char.toNat_inj.mp
  rw [Nat.toNat_digitChar_of_lt_ten (digitValue_lt h), digitValue]
  omega

theorem toDigits_digitValue {c : Char} (h : c.isDigit = true) :
    Nat.toDigits 10 (digitValue c) = [c] := by
  rw [Nat.toDigits_of_lt_base (digitValue_lt h), digitChar_digitValue h]

theorem ofDigitChars_eq_ofDigits (digits : List Char) :
    Nat.ofDigitChars 10 digits 0 = Nat.ofDigits 10 (digits.reverse.map digitValue) := by
  induction digits using List.reverseRecOn with
  | nil => rfl
  | append_singleton front last ih =>
    rw [Nat.ofDigitChars_append, ih, List.reverse_append, List.reverse_singleton,
      List.singleton_append, List.map_cons, Nat.ofDigits_cons, Nat.ofDigitChars_cons, Nat.add_comm]
    rfl

/-- Leading zeros do not count. -/
theorem ofDigitChars_dropWhile (digits : List Char) :
    Nat.ofDigitChars 10 (digits.dropWhile (· = '0')) 0 = Nat.ofDigitChars 10 digits 0 := by
  induction digits with
  | nil => rfl
  | cons first rest ih =>
    by_cases hzero : first = '0'
    · subst hzero
      rw [List.dropWhile_cons_of_pos (by decide), ih, Nat.ofDigitChars_cons]
      rfl
    · rw [List.dropWhile_cons_of_neg (by simpa using hzero)]

/-- Digits that follow a number other than zero are appended to its own digits. -/
theorem toDigits_append {digits : List Char} (h : ∀ c ∈ digits, c.isDigit = true) {n : Nat}
    (hn : 0 < n) : Nat.toDigits 10 n ++ digits = Nat.toDigits 10 (Nat.ofDigitChars 10 digits n) := by
  induction digits generalizing n with
  | nil => rw [List.append_nil, Nat.ofDigitChars_nil]
  | cons c rest ih =>
    obtain ⟨hc, hrest⟩ := List.forall_mem_cons.mp h
    calc Nat.toDigits 10 n ++ c :: rest
        = Nat.toDigits 10 n ++ Nat.toDigits 10 (digitValue c) ++ rest := by
          rw [toDigits_digitValue hc, List.append_assoc, List.singleton_append]
      _ = Nat.toDigits 10 (10 * n + digitValue c) ++ rest := by
          rw [Nat.toDigits_append_toDigits (by decide) hn (digitValue_lt hc)]
      _ = Nat.toDigits 10 (Nat.ofDigitChars 10 (c :: rest) n) := by
          rw [ih hrest (by omega), Nat.ofDigitChars_cons]
          rfl

/-- A number has one run of digits that does not begin with zero. -/
theorem toDigits_ofDigitChars {first : Char} {rest : List Char}
    (h : ∀ c ∈ first :: rest, c.isDigit = true) (hfirst : first ≠ '0') :
    Nat.toDigits 10 (Nat.ofDigitChars 10 (first :: rest) 0) = first :: rest := by
  obtain ⟨hdigit, hrest⟩ := List.forall_mem_cons.mp h
  have hpos : 0 < digitValue first := by
    refine Nat.pos_of_ne_zero fun hzero => hfirst ?_
    rw [← digitChar_digitValue hdigit, hzero]
    rfl
  rw [Nat.ofDigitChars_cons, Nat.mul_zero, Nat.zero_add, ← digitValue, ← toDigits_append hrest hpos,
    toDigits_digitValue hdigit, List.singleton_append]

/-! ## Texts -/

/-- Different numbers are written differently. -/
theorem decimal_injective : Function.Injective decimal := by
  intro m n h
  have hread := congrArg ofDecimal? h
  simpa [ofDecimal?_decimal] using hread

/-- Reading a text gives the number of its digits, and every run of digits is read. -/
theorem ofDecimal?_eq_some_iff {s : String} {n : Nat} :
    ofDecimal? s = some n ↔ DigitRun s ∧ decimalValue s = n := by
  rw [ofDecimal?, digitRun_iff, decimalValue, ← ofDigitChars_eq_ofDigits]
  split
  · next h => rw [Option.some.injEq, and_iff_right h]
  · next h => exact iff_of_false (Option.some_ne_none n).symm fun hand => h hand.1

/-- Written again, the number of a run of digits has lost the leading zeros. -/
theorem decimal_decimalValue {s : String} (h : DigitRun s) :
    decimal (decimalValue s) = trimZeros s := by
  obtain ⟨-, hdigits⟩ := h
  have hkept : ∀ c ∈ s.toList.dropWhile (· = '0'), c.isDigit = true := fun c hc =>
    hdigits c ((List.dropWhile_sublist _).mem hc)
  rw [decimal, decimalValue, ← ofDigitChars_eq_ofDigits, ← ofDigitChars_dropWhile, Nat.repr,
    trimZeros]
  cases htrim : s.toList.dropWhile (· = '0') with
  | nil => rfl
  | cons first rest =>
    have hfirst : first ≠ '0' := by
      simpa [htrim] using List.head?_dropWhile_not (· = '0') s.toList
    rw [htrim] at hkept
    exact congrArg String.ofList (toDigits_ofDigitChars hkept hfirst)

example : decimal (decimalValue "007") = "7" ∧ decimal (decimalValue "00") = "0" := by decide

end CircuitProof
