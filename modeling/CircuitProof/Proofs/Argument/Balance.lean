import Mathlib.Tactic.LinearCombination
import CircuitProof.Proofs.Argument.Keys

/-!
# The balance of a proof

The points of a proof are multiples of the generators. The product of the first two scalars is
that of the key, plus the statement's part and the third scalar, each times its own secret, plus
the value at the secret point of what the cut quotient leaves of `A · B - C`. Verification tells
whether the two sides balance, so it tells whether that value is zero.
-/

namespace CircuitProof

variable {F G₁ G₂ T : Type} [Field F] [RadixTwo F] [DecidableEq F]

namespace Secrets

def scalarA (secrets : Secrets F) (values : ProgramValues F) (z : List F) (r : F) : F :=
  secrets.alpha + dot z values.a + r * secrets.delta

def scalarB (secrets : Secrets F) (values : ProgramValues F) (z : List F) (s : F) : F :=
  secrets.beta + dot z values.b + s * secrets.delta

/-- The scalar of the third point of a proof whose quotient has the coefficients `h`. -/
def scalarC (secrets : Secrets F) (values : ProgramValues F) (numStatement : Nat) (z h : List F)
    (r s : F) : F :=
  s * secrets.scalarA values z r + r * secrets.scalarB values z s - r * s * secrets.delta +
    dot (z.drop numStatement) (secrets.restScalars values numStatement) +
    dot h (secrets.quotientScalars values)

omit [RadixTwo F] [DecidableEq F] in
/-- The combined values split at the end of the statement. -/
theorem dot_statement_add_dot_rest (secrets : Secrets F) (values : ProgramValues F) (m : Nat)
    (z : List F) (hm : m ≤ (secrets.combined values).length) (hgamma : secrets.gamma ≠ 0)
    (hdelta : secrets.delta ≠ 0) :
    dot (z.take m) (secrets.statementScalars values m) * secrets.gamma +
        dot (z.drop m) (secrets.restScalars values m) * secrets.delta =
      dot z (secrets.combined values) := by
  have hlength : ((secrets.combined values).take m).length = m := by
    rw [List.length_take]
    omega
  have hsplit := dot_append z ((secrets.combined values).take m) ((secrets.combined values).drop m)
  rw [List.take_append_drop, hlength] at hsplit
  have htake : dot (z.take m) ((secrets.combined values).take m) =
      dot z ((secrets.combined values).take m) := by
    rw [dot_take, List.take_take, Nat.min_self]
  rw [statementScalars, restScalars, dot_map_mul, dot_map_mul, hsplit, htake]
  field_simp

namespace Generates

variable {secrets : Secrets F} {groups : PairingGroups F G₁ G₂ T} {s : ConstraintSystem F}
  {pk : ProvingKey F G₁ G₂} {d : Domain} {values : ProgramValues F}

/-- The scalars of a proof's points. -/
theorem blindedProof_eq (h : secrets.Generates groups s pk d values) (h₁ : groups.first.Lawful)
    (h₂ : groups.second.Lawful) (z quotient : List F) (j k : F) :
    pk.blindedProof groups z quotient j k =
      ⟨groups.first.multiple (secrets.scalarA values z j),
        groups.second.multiple (secrets.scalarB values z k),
        groups.first.multiple (secrets.scalarC values s.numStatement z quotient j k)⟩ := by
  have ha : groups.first.blinded pk.verifying.alpha z pk.aQuery j pk.delta₁ =
      groups.first.multiple (secrets.scalarA values z j) := by
    rw [h.key]
    exact h₁.blinded_multiple secrets.alpha j secrets.delta z values.a
  have hb₁ : groups.first.blinded pk.beta₁ z pk.bQuery₁ k pk.delta₁ =
      groups.first.multiple (secrets.scalarB values z k) := by
    rw [h.key]
    exact h₁.blinded_multiple secrets.beta k secrets.delta z values.b
  have hb₂ : groups.second.blinded pk.verifying.beta z pk.bQuery₂ k pk.verifying.delta =
      groups.second.multiple (secrets.scalarB values z k) := by
    rw [h.key]
    exact h₂.blinded_multiple secrets.beta k secrets.delta z values.b
  have hdelta : pk.delta₁ = groups.first.multiple secrets.delta := by
    rw [h.key]
    rfl
  simp only [ProvingKey.blindedProof, ha, hb₁, hb₂]
  rw [hdelta, h.key_lQuery, h.key_hQuery, h.key_numStatement, h₁.scaleMember_multiple,
    h₁.scaleMember_multiple, h₁.scale_multiple, h₁.add_multiple, h₁.sub_multiple,
    h₁.combine_ofScalars, h₁.add_multiple, h₁.combine_ofScalars, h₁.add_multiple, scalarC]

/-- The combined values weigh an assignment as the three polynomials do, with the secrets as
factors. -/
theorem dot_combined_eq (h : secrets.Generates groups s pk d values) {z : List F}
    (hz : z.length = s.numColumns) :
    dot z (secrets.combined values) =
      secrets.beta * dot z values.a + secrets.alpha * dot z values.b + dot z values.c :=
  dot_zipWith_combined secrets.beta secrets.alpha z values.a values.b values.c
    (by rw [h.lengths.1, hz]) (by rw [h.lengths.2.1, hz]) (by rw [h.lengths.2.2, hz])

variable [LawfulRadixTwo F]

/-- What an assignment makes of the columns is the vanishing polynomial's value times that of the
cut quotient, and the excess. -/
theorem dot_mul_dot_eq (h : secrets.Generates groups s pk d values) {z : List F}
    (hz : z.length = s.numColumns) :
    dot z values.a * dot z values.b - dot z values.c =
      values.vanishing *
          dot ((QuadraticProgram.ofSystem s).quotientCoefficients d z)
            (powers secrets.tau (values.domainSize - 1)) +
        ((QuadraticProgram.ofSystem s).excess d z).eval secrets.tau := by
  have hfits := h.fitsDomain z
  have hlength := QuadraticProgram.length_quotientCoefficients hfits.root
    (QuadraticProgram.ofSystem s) z
  have hle : d.size - 1 ≤ ((QuadraticProgram.ofSystem s).quotientCoefficients d z).length := by
    omega
  rw [(h.combines hz).eval_numerator_eq hfits, QuadraticProgram.excess, Polynomial.eval_sub,
    Polynomial.eval_mul, Domain.eval_vanishing, h.vanishing_eq, h.domainSize_eq,
    dot_powers _ _ hle]
  ring

/-- The scalars of a proof balance up to the excess at the secret point. -/
theorem scalars_excess (h : secrets.Generates groups s pk d values) {z : List F}
    (hz : z.length = s.numColumns) (j k : F) :
    secrets.scalarA values z j * secrets.scalarB values z k =
      secrets.alpha * secrets.beta +
          (dot (z.take s.numStatement) (secrets.statementScalars values s.numStatement) *
              secrets.gamma +
            secrets.scalarC values s.numStatement z
                ((QuadraticProgram.ofSystem s).quotientCoefficients d z) j k *
              secrets.delta) +
        ((QuadraticProgram.ofSystem s).excess d z).eval secrets.tau := by
  have hle : s.numStatement ≤ (secrets.combined values).length := by
    rw [h.length_combined_eq]
    exact h.numStatement_le
  have hsplit := secrets.dot_statement_add_dot_rest values s.numStatement z hle h.gamma_ne_zero
    h.delta_ne_zero
  have hquotient : dot ((QuadraticProgram.ofSystem s).quotientCoefficients d z)
      (secrets.quotientScalars values) * secrets.delta =
        values.vanishing * dot ((QuadraticProgram.ofSystem s).quotientCoefficients d z)
          (powers secrets.tau (values.domainSize - 1)) := by
    rw [quotientScalars, dot_map_mul]
    field_simp [h.delta_ne_zero]
  have hcolumns := h.dot_mul_dot_eq hz
  rw [h.dot_combined_eq hz] at hsplit
  rw [scalarC, scalarA, scalarB]
  linear_combination -hsplit - hquotient + hcolumns

/-- The scalars of a proof for an assignment that satisfies every row balance. -/
theorem scalars_balance (h : secrets.Generates groups s pk d values) {z : List F}
    (hz : z.length = s.numColumns)
    (hrows : ∀ row < s.numConstraints, s.rowHolds? z row = some true) (j k : F) :
    secrets.scalarA values z j * secrets.scalarB values z k =
      secrets.alpha * secrets.beta +
        (dot (z.take s.numStatement) (secrets.statementScalars values s.numStatement) *
            secrets.gamma +
          secrets.scalarC values s.numStatement z
              ((QuadraticProgram.ofSystem s).quotientCoefficients d z) j k *
            secrets.delta) := by
  have hsatisfied := (ConstraintSystem.satisfied_iff_rowHolds? h.fits
    (by rw [hz, h.numColumns_eq])).mpr hrows
  have hexcess := (QuadraticProgram.excess_eq_zero_iff h.fits h.domain).mpr hsatisfied
  rw [h.scalars_excess hz j k, hexcess, Polynomial.eval_zero, add_zero]

end Generates

end Secrets

/-! ## Verification -/

omit [Field F] [RadixTwo F] [DecidableEq F] in
theorem Proof.malformed?_eq_none_iff {groups : PairingGroups F G₁ G₂ T} {proof : Proof G₁ G₂} :
    proof.malformed? groups = none ↔ groups.first.isMember proof.a = true ∧
      groups.second.isMember proof.b = true ∧ groups.first.isMember proof.c = true := by
  rw [malformed?]
  cases groups.first.isMember proof.a <;> cases groups.second.isMember proof.b <;>
    cases groups.first.isMember proof.c <;> simp

section
variable [Mul T] {groups : PairingGroups F G₁ G₂ T} {pair : G₁ → G₂ → T}

omit [RadixTwo F] [DecidableEq F] in
/-- Multiples of the generators are members, so no element of such a proof is reported. -/
theorem Proof.malformed?_multiples (h : groups.Lawful pair) (a b c : F) :
    Proof.malformed? groups
      ⟨groups.first.multiple a, groups.second.multiple b, groups.first.multiple c⟩ = none :=
  malformed?_eq_none_iff.mpr
    ⟨h.first.multiple_mem a, h.second.multiple_mem b, h.first.multiple_mem c⟩

variable [DecidableEq T]

omit [Field F] [RadixTwo F] [DecidableEq F] in
/-- A proof gets a verdict only if its points are members. -/
theorem malformed?_of_verify {vk : VerifyingKey G₁ G₂} {shown : List F} {proof : Proof G₁ G₂}
    {verdict : Bool} (h : vk.verify groups shown proof = .ok verdict) :
    proof.malformed? groups = none := by
  cases hmalformed : proof.malformed? groups with
  | none => rfl
  | some element =>
    exfalso
    rw [VerifyingKey.verify] at h
    cases hprepare : vk.prepare groups with
    | error e =>
      rw [hprepare] at h
      cases h
    | ok pvk =>
      simp only [hprepare, bind, Except.bind, PreparedKey.verify, hmalformed] at h
      split at h
      · cases h
      · split at h <;> cases h

omit [RadixTwo F] [DecidableEq F] in
/-- For a key of multiples and a proof whose third point is one, verification compares the pairing
of the first two with what the scalars come to. -/
theorem verify_members (h : groups.Lawful pair) {vk : VerifyingKey G₁ G₂}
    {alpha beta gamma delta start : F} {statement shown : List F}
    (hvk : vk = ⟨groups.first.multiple alpha, groups.second.multiple beta,
      groups.second.multiple gamma, groups.second.multiple delta,
      groups.first.ofScalars (start :: statement)⟩)
    (hshown : shown.length = statement.length) {proof : Proof G₁ G₂}
    (hproof : proof.malformed? groups = none) {c : F} (hc : groups.first.multiple c = proof.c) :
    vk.verify groups shown proof =
      .ok (decide (pair proof.a proof.b =
        pair groups.first.generator (groups.second.multiple
          (alpha * beta + ((start + dot shown statement) * gamma + c * delta))))) := by
  have hmem₁ := h.first.multiple_mem
  have hmem₂ := h.second.multiple_mem
  obtain ⟨ha, hb, -⟩ := Proof.malformed?_eq_none_iff.mp hproof
  have hstatement : vk.statement =
      groups.first.multiple start :: groups.first.ofScalars statement := by
    rw [hvk]
    rfl
  have hlength : shown.length = vk.numShown := by
    rw [VerifyingKey.numShown, hstatement, List.length_cons, PointGroup.length_ofScalars, hshown,
      Nat.add_sub_cancel]
  have hprepare : vk.prepare groups = .ok ⟨vk,
      pair groups.first.generator (groups.second.multiple (alpha * beta))⟩ := by
    rw [VerifyingKey.prepare, hvk, h.product_one (hmem₁ alpha) (hmem₂ beta), h.pair_multiple]
  have hinputs : groups.first.add (groups.first.multiple start)
      (groups.first.combine shown (groups.first.ofScalars statement)) =
        groups.first.multiple (start + dot shown statement) := by
    rw [h.first.combine_ofScalars, h.first.add_multiple]
  have hgamma : vk.gamma = groups.second.multiple gamma := by rw [hvk]
  have hdelta : vk.delta = groups.second.multiple delta := by rw [hvk]
  simp only [VerifyingKey.verify, hprepare, bind, Except.bind, PreparedKey.verify, hstatement,
    hproof, hinputs, hgamma, hdelta, ← hc, h.product_one ha hb,
    h.product_two (hmem₁ _) (hmem₂ gamma) (hmem₁ c) (hmem₂ delta), h.pair_multiple,
    h.mul_pair_multiple]
  rw [if_neg (not_not.mpr hlength)]

omit [RadixTwo F] [DecidableEq F] in
/-- For multiples of the generators, verification compares what the scalars come to. -/
theorem verify_multiples (h : groups.Lawful pair) {vk : VerifyingKey G₁ G₂}
    {alpha beta gamma delta start : F} {statement shown : List F}
    (hvk : vk = ⟨groups.first.multiple alpha, groups.second.multiple beta,
      groups.second.multiple gamma, groups.second.multiple delta,
      groups.first.ofScalars (start :: statement)⟩)
    (hshown : shown.length = statement.length) (a b c : F) :
    vk.verify groups shown
        ⟨groups.first.multiple a, groups.second.multiple b, groups.first.multiple c⟩ =
      .ok (decide (pair groups.first.generator (groups.second.multiple (a * b)) =
        pair groups.first.generator (groups.second.multiple
          (alpha * beta + ((start + dot shown statement) * gamma + c * delta))))) := by
  rw [verify_members h hvk hshown (Proof.malformed?_multiples h a b c) rfl, h.pair_multiple]

/-- A generated key compares the pairing of a proof's first two points with what its own scalars,
those of the statement and that of the third point come to. -/
theorem Secrets.Generates.verify_eq {secrets : Secrets F} {s : ConstraintSystem F}
    {pk : ProvingKey F G₁ G₂} {d : Domain} {values : ProgramValues F}
    (h : secrets.Generates groups s pk d values) (hgroups : groups.Lawful pair) {shown : List F}
    (hshown : shown.length = s.numShown) {proof : Proof G₁ G₂}
    (hproof : proof.malformed? groups = none) {c : F} (hc : groups.first.multiple c = proof.c) :
    pk.verifying.verify groups shown proof =
      .ok (decide (pair proof.a proof.b =
        pair groups.first.generator (groups.second.multiple (secrets.alpha * secrets.beta +
          (dot (1 :: shown) (secrets.statementScalars values s.numStatement) * secrets.gamma +
            c * secrets.delta))))) := by
  have hlength : (secrets.statementScalars values s.numStatement).length = s.numShown + 1 := by
    rw [h.length_statementScalars, ConstraintSystem.numStatement, Nat.add_comm]
  obtain ⟨start, statement, hscalars⟩ := List.exists_cons_of_length_eq_add_one hlength
  have hverifying := h.key_verifying
  rw [hscalars] at hverifying hlength
  rw [verify_members hgroups hverifying (by simpa [hshown] using hlength.symm) hproof hc, hscalars,
    dot_cons, one_mul]

end

end CircuitProof
