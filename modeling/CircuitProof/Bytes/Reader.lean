import CircuitProof.Bytes.Endian

/-!
# Readers of byte strings

A reader takes a value off the front of a byte string and leaves the rest, or fails. Readers run one
after the other; the first failure ends the run.
-/

namespace CircuitProof

def Reader (ε α : Type) : Type := Bytes → Except ε (α × Bytes)

namespace Reader

variable {ε α β : Type}

def bind (r : Reader ε α) (f : α → Reader ε β) : Reader ε β := fun bytes =>
  match r bytes with
  | .error e => .error e
  | .ok (a, rest) => f a rest

instance : Monad (Reader ε) where
  pure a := fun bytes => .ok (a, bytes)
  bind := bind

theorem pure_apply (a : α) (bytes : Bytes) : (pure a : Reader ε α) bytes = .ok (a, bytes) := rfl

theorem bind_of_ok {r : Reader ε α} {f : α → Reader ε β} {bytes rest : Bytes} {a : α}
    (h : r bytes = .ok (a, rest)) : (r >>= f) bytes = f a rest := by
  change bind r f bytes = _
  simp [bind, h]

theorem bind_of_error {r : Reader ε α} {f : α → Reader ε β} {bytes : Bytes} {e : ε}
    (h : r bytes = .error e) : (r >>= f) bytes = .error e := by
  change bind r f bytes = _
  simp [bind, h]

theorem pure_eq_ok_iff {a b : α} {bytes rest : Bytes} :
    (pure a : Reader ε α) bytes = .ok (b, rest) ↔ a = b ∧ bytes = rest := by
  simp [pure_apply]

/-- Two readers succeed one after the other exactly if the second takes up what the first leaves. -/
theorem bind_eq_ok_iff {r : Reader ε α} {f : α → Reader ε β} {bytes rest : Bytes} {b : β} :
    (r >>= f) bytes = .ok (b, rest) ↔
      ∃ a mid, r bytes = .ok (a, mid) ∧ f a mid = .ok (b, rest) := by
  cases h : r bytes with
  | error e => simp [bind_of_error h]
  | ok result =>
    obtain ⟨a, mid⟩ := result
    simp only [bind_of_ok h, Except.ok.injEq, Prod.mk.injEq]
    exact ⟨fun hf => ⟨a, mid, ⟨rfl, rfl⟩, hf⟩, fun ⟨_, _, ⟨rfl, rfl⟩, hf⟩ => hf⟩

def fail (e : ε) : Reader ε α := fun _ => .error e

@[simp] theorem fail_ne_ok (e : ε) (bytes : Bytes) (result : α × Bytes) :
    (fail e : Reader ε α) bytes ≠ .ok result := by
  simp [fail]

def ofOption (e : ε) : Option α → Reader ε α
  | some a => pure a
  | none => fail e

theorem ofOption_eq_ok_iff {e : ε} {item : Option α} {a : α} {bytes rest : Bytes} :
    ofOption e item bytes = .ok (a, rest) ↔ item = some a ∧ bytes = rest := by
  cases item with
  | none => simp [ofOption]
  | some b => simp [ofOption, pure_eq_ok_iff]

/-- The next `n` bytes; `short` makes an error of the bytes that are left when these are too
few. -/
def take (short : Bytes → ε) (n : Nat) : Reader ε Bytes := fun bytes =>
  let head := bytes.take n
  if head.length = n then .ok (head, bytes.drop n) else .error (short bytes)

theorem take_append (short : Bytes → ε) (head rest : Bytes) :
    take short head.length (head ++ rest) = .ok (head, rest) := by
  simp [take]

theorem take_of_short (short : Bytes → ε) {n : Nat} {bytes : Bytes} (h : bytes.length < n) :
    take short n bytes = .error (short bytes) := by
  have hne : (bytes.take n).length ≠ n := by
    rw [List.length_take]
    omega
  simp only [take, if_neg hne]

theorem take_eq_ok_iff {short : Bytes → ε} {n : Nat} {bytes head rest : Bytes} :
    take short n bytes = .ok (head, rest) ↔ head.length = n ∧ bytes = head ++ rest := by
  constructor
  · intro h
    simp only [take] at h
    split at h
    · next hlength =>
      cases h
      exact ⟨hlength, (List.take_append_drop n bytes).symm⟩
    · cases h
  · rintro ⟨rfl, rfl⟩
    exact take_append short head rest

def times (r : Reader ε α) : Nat → Reader ε (List α)
  | 0 => pure []
  | n + 1 => do
    let x ← r
    let xs ← times r n
    pure (x :: xs)

/-- Reads the whole byte string; `trailing` makes an error of what is left over. -/
def whole (trailing : Bytes → ε) (r : Reader ε α) (bytes : Bytes) : Except ε α :=
  match r bytes with
  | .error e => .error e
  | .ok (a, []) => .ok a
  | .ok (_, rest) => .error (trailing rest)

theorem whole_eq_ok_iff (trailing : Bytes → ε) (r : Reader ε α) (bytes : Bytes) (a : α) :
    whole trailing r bytes = .ok a ↔ r bytes = .ok (a, []) := by
  unfold whole
  split <;> simp_all

end Reader

end CircuitProof
