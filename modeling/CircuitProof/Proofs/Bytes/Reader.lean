import CircuitProof.Bytes.Reader

/-!
# Forms that end by themselves

A reader takes a form off the front of a byte string if it reads the value whatever follows and leaves
exactly that. The form of a value that is read part after part is the parts' forms one after the
other.
-/

namespace CircuitProof

namespace Reader

variable {ε α β : Type} {r : Reader ε α} {f : α → Reader ε β} {form form' : Bytes} {a : α} {b : β}

/-- Whatever follows the form, the reader gives the value and leaves what follows. -/
def Takes (r : Reader ε α) (form : Bytes) (v : α) : Prop :=
  ∀ rest, r (form ++ rest) = .ok (v, rest)

theorem Takes.of_eq (h : r.Takes form a) (hform : form = form') : r.Takes form' a := hform ▸ h

theorem takes_pure (v : α) : (pure v : Reader ε α).Takes [] v := fun _ => rfl

/-- Forms are laid end to end as readers run one after the other. -/
theorem Takes.bind (h : r.Takes form a) (h' : (f a).Takes form' b) :
    (r >>= f).Takes (form ++ form') b := by
  intro rest
  rw [List.append_assoc, bind_of_ok (h _), h' rest]

/-- What follows a form may read nothing and still check the value. -/
theorem Takes.bind_pure (h : r.Takes form a) (h' : f a = pure b) : (r >>= f).Takes form b := by
  intro rest
  rw [bind_of_ok (h rest), h', pure_apply]

theorem takes_take (short : Bytes → ε) {n : Nat} (h : form.length = n) :
    (take short n).Takes form form := by
  intro rest
  rw [← h, take_append]

/-- A list is read item by item. -/
theorem Takes.times {write : α → Bytes} {items : List α} (h : ∀ x ∈ items, r.Takes (write x) x) :
    (r.times items.length).Takes (items.flatMap write) items := by
  induction items with
  | nil => exact takes_pure []
  | cons x items ih =>
    obtain ⟨hx, hitems⟩ := List.forall_mem_cons.mp h
    exact hx.bind ((ih hitems).bind_pure rfl)

/-! ## Bytes that are too few -/

/-- More bytes behind a byte string change nothing but the rest: what is read is read again, and an
error stays, unless it says that the bytes are too few. -/
structure Steady (r : Reader ε α) (short : ε → Prop) : Prop where
  ok : ∀ {bytes v rest}, r bytes = .ok (v, rest) → ∀ tail, r (bytes ++ tail) = .ok (v, rest ++ tail)
  error : ∀ {bytes e}, r bytes = .error e → ∀ tail, short e ∨ r (bytes ++ tail) = .error e

variable {short : ε → Prop}

theorem steady_pure (v : α) : (pure v : Reader ε α).Steady short where
  ok h tail := by
    cases h
    rfl
  error h := nomatch h

theorem steady_fail (e : ε) : (fail e : Reader ε α).Steady short where
  ok h := nomatch h
  error h tail := by
    cases h
    exact .inr rfl

theorem steady_ofOption (e : ε) (item : Option α) : (ofOption e item).Steady short := by
  cases item with
  | none => exact steady_fail e
  | some a => exact steady_pure a

theorem steady_take {tooFew : Bytes → ε} {n : Nat}
    (h : ∀ left : Bytes, left.length < n → short (tooFew left)) : (take tooFew n).Steady short where
  ok hread tail := by
    obtain ⟨hlength, rfl⟩ := take_eq_ok_iff.mp hread
    exact take_eq_ok_iff.mpr ⟨hlength, List.append_assoc ..⟩
  error {bytes e} hread tail := by
    rcases Nat.lt_or_ge bytes.length n with hlt | hle
    · rw [take_of_short tooFew hlt] at hread
      cases hread
      exact .inl (h bytes hlt)
    · have hhead : (bytes.take n).length = n := List.length_take_of_le hle
      rw [take_eq_ok_iff.mpr ⟨hhead, (List.take_append_drop n bytes).symm⟩] at hread
      cases hread

/-- A reader made of steady ones is steady. -/
theorem Steady.bind (h : r.Steady short) (hf : ∀ a, (f a).Steady short) :
    (r >>= f).Steady short where
  ok hread tail := by
    obtain ⟨a, mid, hfirst, hsecond⟩ := bind_eq_ok_iff.mp hread
    exact bind_eq_ok_iff.mpr ⟨a, _, h.ok hfirst tail, (hf a).ok hsecond tail⟩
  error {bytes e} hread tail := by
    cases hfirst : r bytes with
    | error e' =>
      rw [bind_of_error hfirst] at hread
      cases hread
      exact (h.error hfirst tail).imp_right bind_of_error
    | ok result =>
      obtain ⟨a, mid⟩ := result
      rw [bind_of_ok hfirst] at hread
      rw [bind_of_ok (h.ok hfirst tail)]
      exact (hf a).error hread tail

theorem Steady.times (h : r.Steady short) (n : Nat) : (r.times n).Steady short := by
  induction n with
  | zero => exact steady_pure []
  | succ n ih => exact h.bind fun _ => ih.bind fun _ => steady_pure _

/-- A piece off the front of a form can be nothing but too short: whatever else was said of it would
be said of the form. -/
theorem Takes.short_of_piece (h : r.Takes form a) (hsteady : r.Steady short) {cut : Bytes}
    (hpiece : cut <+: form) (hne : cut ≠ form) : ∃ e, short e ∧ r cut = .error e := by
  obtain ⟨tail, rfl⟩ := hpiece
  have hwhole : r (cut ++ tail) = .ok (a, []) := by simpa only [List.append_nil] using h []
  cases hcut : r cut with
  | ok result =>
    have hread := hwhole.symm.trans (hsteady.ok hcut tail)
    have hrest : [] = result.2 ++ tail := congrArg Prod.snd (Except.ok.inj hread)
    rw [(List.append_eq_nil_iff.mp hrest.symm).2, List.append_nil] at hne
    exact absurd rfl hne
  | error e =>
    rcases hsteady.error hcut tail with hshort | hread
    · exact ⟨e, hshort, rfl⟩
    · rw [hwhole] at hread
      cases hread

end Reader

end CircuitProof
