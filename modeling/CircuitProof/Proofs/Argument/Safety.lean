import CircuitProof.Argument.Randomized
import CircuitProof.Proofs.Argument.Groups
import CircuitProof.Proofs.Bn254.Domain
import CircuitProof.Proofs.Polynomial.Quotient

/-!
# Proving with any key

Nothing is assumed of a key: its queries may have any lengths and its matrices any rows. The checks
of the prover decide whether the parts of the key fit together, and where they do, every index and
every slice that the prover takes is in range. Randomness is drawn only after the last check.
-/

namespace CircuitProof

theorem Domain.le_size_iff_logFor_le {n k : Nat} : n ≤ 2 ^ k ↔ Domain.logFor n ≤ k := by
  rw [logFor]
  split
  · have hpos : 0 < 2 ^ k := Nat.two_pow_pos k
    omega
  · have hlog : (n - 1).log2 < k ↔ n - 1 < 2 ^ k := Nat.log2_lt (by omega)
    omega

/-- The domain for `n` points is the smallest one that has them. -/
theorem Domain.forSize?_eq_some_iff {F : Type} [RadixTwo F] {n : Nat} {d : Domain} :
    forSize? F n = some d ↔ d.log ≤ RadixTwo.maxLog F ∧ ∀ k, n ≤ 2 ^ k ↔ d.log ≤ k := by
  simp only [le_size_iff_logFor_le]
  constructor
  · intro h
    rw [forSize?] at h
    split at h
    · next hle =>
      obtain rfl := Option.some.inj h
      exact ⟨hle, fun k => Iff.rfl⟩
    · cases h
  · rintro ⟨hle, hleast⟩
    have hlog : logFor n = d.log :=
      le_antisymm ((hleast d.log).mpr le_rfl) ((hleast (logFor n)).mp le_rfl)
    rw [forSize?, hlog, if_pos hle]

namespace ProvingKey

variable {F G₁ G₂ T : Type}

/-- The matrix has a row for each row of the key's program and a column for each of its columns. -/
structure MatrixFits (pk : ProvingKey F G₁ G₂) (m : Matrix F) : Prop where
  width : m.width = pk.numColumns
  height : m.rows.length = pk.program.numConstraints
  columns : ∀ row ∈ m.rows, ∀ term ∈ row, term.1 < pk.numColumns

/-- The shape of the key: its queries, statement points and matrices fit together. -/
structure ShapeFits (pk : ProvingKey F G₁ G₂) : Prop where
  bQuery₁ : pk.bQuery₁.length = pk.aQuery.length
  bQuery₂ : pk.bQuery₂.length = pk.aQuery.length
  statement : pk.verifying.statement.length = pk.program.numStatement
  partition : pk.lQuery.length + pk.program.numStatement = pk.aQuery.length
  a : pk.MatrixFits pk.program.a
  b : pk.MatrixFits pk.program.b
  c : pk.MatrixFits pk.program.c

variable {pk : ProvingKey F G₁ G₂}

theorem matrixFault?_eq_none_iff {m : Matrix F} : pk.matrixFault? m = none ↔ pk.MatrixFits m := by
  have hcolumns : m.columnsBelow pk.numColumns = true ↔
      ∀ row ∈ m.rows, ∀ term ∈ row, term.1 < pk.numColumns := by
    simp [Matrix.columnsBelow]
  rw [matrixFault?]
  constructor
  · intro h
    split at h
    · cases h
    · next hshape =>
      obtain ⟨hwidth, hheight⟩ := not_or.mp hshape
      split at h
      · next hbelow => exact ⟨not_not.mp hwidth, not_not.mp hheight, hcolumns.mp hbelow⟩
      · cases h
  · intro h
    have hheight : m.height = pk.program.numConstraints := h.height
    rw [if_neg (by simp [h.width, hheight]), if_pos (hcolumns.mpr h.columns)]

/-- No fault is found in the shape only if queries, statement points and matrices fit together. -/
theorem shapeFault?_eq_none_iff : pk.shapeFault? = none ↔ pk.ShapeFits := by
  rw [shapeFault?]
  constructor
  · intro h
    split at h
    · cases h
    · next hqueries =>
      obtain ⟨hquery₁, hquery₂⟩ := not_or.mp hqueries
      split at h
      · cases h
      · next hsplit =>
        obtain ⟨hstatement, hrest⟩ := not_or.mp hsplit
        obtain ⟨ha, hbc⟩ := Option.or_eq_none_iff.mp h
        obtain ⟨hb, hc⟩ := Option.or_eq_none_iff.mp hbc
        exact ⟨not_not.mp hquery₁, not_not.mp hquery₂, not_not.mp hstatement, not_not.mp hrest,
          matrixFault?_eq_none_iff.mp ha, matrixFault?_eq_none_iff.mp hb,
          matrixFault?_eq_none_iff.mp hc⟩
  · intro h
    have hquery₁ : pk.bQuery₁.length = pk.numColumns := h.bQuery₁
    have hquery₂ : pk.bQuery₂.length = pk.numColumns := h.bQuery₂
    have hstatement : pk.numStatement = pk.program.numStatement := h.statement
    have hrest : pk.lQuery.length + pk.program.numStatement = pk.numColumns := h.partition
    rw [if_neg (by simp [hquery₁, hquery₂]), if_neg (by simp [hstatement, hrest]),
      matrixFault?_eq_none_iff.mpr h.a, matrixFault?_eq_none_iff.mpr h.b,
      matrixFault?_eq_none_iff.mpr h.c]
    rfl

/-- The program of a key whose shape fits is one, and has the key's columns. -/
theorem ShapeFits.program (h : pk.ShapeFits) :
    pk.program.Fits ∧ pk.program.numColumns = pk.numColumns := by
  have hcolumns : pk.program.numColumns = pk.numColumns := h.a.width
  have hbelow : ∀ m : Matrix F, pk.MatrixFits m → m.columnsBelow pk.numColumns = true := by
    intro m hm
    simpa [Matrix.columnsBelow] using hm.columns
  refine ⟨⟨h.b.height, h.c.height, ?_, ?_, ?_, ?_⟩, hcolumns⟩
  all_goals rw [hcolumns]
  · exact hbelow _ h.a
  · exact hbelow _ h.b
  · exact hbelow _ h.c
  · have hpartition := h.partition
    rw [numColumns]
    omega

/-- The whole key fits together: its shape fits and its quotient query fits the smallest domain with
a point for each row, of size `2 ^ log`. -/
structure FitsDomain [RadixTwo F] (pk : ProvingKey F G₁ G₂) (log : Nat) : Prop where
  shape : pk.ShapeFits
  available : log ≤ RadixTwo.maxLog F
  smallest : ∀ k, pk.program.numConstraints + pk.program.numStatement ≤ 2 ^ k ↔ log ≤ k
  hQuery : pk.hQuery.length = 2 ^ log - 1

/-- Everything that the prover takes out of a list is there, what it divides by is not zero, and each
of its five combinations has as many scalars as points. -/
structure InRange [Field F] [RadixTwo F] (pk : ProvingKey F G₁ G₂) (d : Domain) (z h : List F) :
    Prop where
  rows : ∀ m ∈ [pk.program.a, pk.program.b, pk.program.c], ∃ values,
    m.mulVector? z = some values ∧ values.length = pk.program.numConstraints
  points : pk.program.numConstraints + pk.program.numStatement ≤ d.size
  statement : pk.numStatement ≤ z.length
  shift : (RadixTwo.shift : F) ≠ 0
  vanishing : d.vanishing (RadixTwo.shift : F) ≠ 0
  aQuery : pk.aQuery.length = z.length
  bQuery₁ : pk.bQuery₁.length = z.length
  bQuery₂ : pk.bQuery₂.length = z.length
  lQuery : pk.lQuery.length = (z.drop pk.numStatement).length
  quotient : h.length = d.size
  hQuery : pk.hQuery.length + 1 = h.length

variable [Field F] [RadixTwo F] [LawfulRadixTwo F]

omit [Field F] [LawfulRadixTwo F] in
theorem FitsDomain.domain? {log : Nat} (h : pk.FitsDomain log) :
    pk.program.domain? = some ⟨log⟩ :=
  Domain.forSize?_eq_some_iff.mpr ⟨h.available, h.smallest⟩

/-- The lists that the quotient is computed from fit the domain of a key whose shape fits. -/
theorem ShapeFits.fitsDomain (h : pk.ShapeFits) {d : Domain} (hdomain : pk.program.domain? = some d)
    (z : List F) : pk.program.FitsDomain d z := by
  obtain ⟨hlog, hsize⟩ := Domain.log_le_of_forSize? hdomain
  exact QuadraticProgram.fitsDomain_of_fits h.program.1 (Domain.isPrimitiveRoot hlog) hsize

/-- Where the shape fits, the quotient is computed without leaving a vector. -/
theorem ShapeFits.quotient_eq (h : pk.ShapeFits) {d : Domain} (hdomain : pk.program.domain? = some d)
    {z : List F} (hz : z.length = pk.numColumns) :
    pk.program.quotient z =
      (.ok (some (pk.program.quotientCoefficients d z)) : Except (Failure ProveError) _) := by
  obtain ⟨hprogram, hcolumns⟩ := h.program
  exact QuadraticProgram.quotient_eq hprogram hdomain (hz.trans hcolumns.symm) (h.fitsDomain hdomain z)

theorem ShapeFits.length_quotient (h : pk.ShapeFits) {d : Domain}
    (hdomain : pk.program.domain? = some d) (z : List F) :
    (pk.program.quotientCoefficients d z).length = d.size :=
  QuadraticProgram.length_quotientCoefficients (h.fitsDomain hdomain z).root _ _

theorem FitsDomain.inRange {log : Nat} (h : pk.FitsDomain log) {z : List F}
    (hz : z.length = pk.numColumns) :
    pk.InRange ⟨log⟩ z (pk.program.quotientCoefficients ⟨log⟩ z) := by
  have hlength := h.shape.length_quotient h.domain? z
  have hpos : 0 < 2 ^ log := Nat.two_pow_pos log
  have hpartition := h.shape.partition
  have hquery : pk.aQuery.length = z.length := hz.symm
  refine
    { rows := ?_
      points := (h.smallest log).mpr le_rfl
      statement := ?_
      shift := LawfulRadixTwo.shift_ne_zero
      vanishing := ?_
      aQuery := hquery
      bQuery₁ := h.shape.bQuery₁.trans hquery
      bQuery₂ := h.shape.bQuery₂.trans hquery
      lQuery := ?_
      quotient := hlength
      hQuery := ?_ }
  · have hrows : ∀ m : Matrix F, pk.MatrixFits m → ∃ values,
        m.mulVector? z = some values ∧ values.length = pk.program.numConstraints := by
      intro m hm
      have hbelow : m.columnsBelow z.length = true := by
        rw [hz]
        simpa [Matrix.columnsBelow] using hm.columns
      exact ⟨_, QuadraticProgram.mulVector?_of_below hbelow,
        (QuadraticProgram.length_rowValues m z).trans hm.height⟩
    simp only [List.forall_mem_cons, List.not_mem_nil, IsEmpty.forall_iff, implies_true, and_true]
    exact ⟨hrows _ h.shape.a, hrows _ h.shape.b, hrows _ h.shape.c⟩
  · rw [numStatement, h.shape.statement]
    omega
  · rw [Domain.vanishing_eq, sub_ne_zero]
    exact LawfulRadixTwo.shift_pow_ne_one log h.available
  · rw [List.length_drop, numStatement, h.shape.statement]
    omega
  · rw [hlength, h.hQuery]
    exact Nat.sub_add_cancel hpos

/-! ## The outcomes of the prover -/

variable {groups : PairingGroups F G₁ G₂ T} {w : Witness F}

omit [LawfulRadixTwo F] in
/-- The length of the witness is looked at before the key is. -/
theorem prover_of_length_ne (hw : w.values.length ≠ pk.numColumns) :
    pk.prover groups w =
      Failure.reject (.witnessLengthMismatch pk.numColumns w.values.length) := by
  rw [prover, if_pos hw]

/-- Nothing else can go wrong: what was checked covers every access. -/
theorem prover_of_fitsDomain (hw : w.values.length = pk.numColumns) {log : Nat}
    (h : pk.FitsDomain log) :
    pk.prover groups w = .ok (pk.blindedProof groups w.values
      (pk.program.quotientCoefficients ⟨log⟩ w.values)) := by
  rw [prover, if_neg (not_not.mpr hw), shapeFault?_eq_none_iff.mpr h.shape]
  simp only [h.shape.quotient_eq h.domain? hw, bind, Except.bind]
  rw [if_neg (not_not.mpr (h.inRange hw).hQuery.symm)]

/-- A key of which some parts do not fit is refused, with the fault that is found first. -/
theorem prover_of_not_fitsDomain (hw : w.values.length = pk.numColumns)
    (h : ∀ log, ¬ pk.FitsDomain log) :
    ∃ fault, pk.prover groups w = Failure.reject (.malformedKey fault) := by
  rw [prover, if_neg (not_not.mpr hw)]
  cases hfault : pk.shapeFault? with
  | some fault => exact ⟨fault, rfl⟩
  | none =>
    have hshape := shapeFault?_eq_none_iff.mp hfault
    cases hdomain : pk.program.domain? with
    | none =>
      refine ⟨.noDomain pk.program.minDomainSize, ?_⟩
      simp only [QuadraticProgram.quotient, hdomain, bind, Except.bind]
    | some d =>
      have hlength := hshape.length_quotient hdomain w.values
      refine ⟨.quotientQuery pk.hQuery.length (d.size - 1), ?_⟩
      simp only [hshape.quotient_eq hdomain hw, bind, Except.bind, hlength]
      rw [if_pos]
      intro hquery
      obtain ⟨havailable, hsmallest⟩ := Domain.forSize?_eq_some_iff.mp hdomain
      exact h d.log ⟨hshape, havailable, hsmallest, Nat.eq_sub_of_add_eq hquery.symm⟩

end ProvingKey

/-! ## Drawing after the checks -/

/-- A run of draws that ends well has drawn as many items as it was to draw. -/
theorem length_of_drawAll {α : Type} {draw : Source → Option α × Source} {count : Nat}
    {source rest : Source} {items : List α} (h : drawAll draw count source = (some items, rest)) :
    items.length = count := by
  induction count generalizing source items rest with
  | zero =>
    cases h
    rfl
  | succ count ih =>
    rw [drawAll] at h
    split at h
    · cases h
    · split at h
      · cases h
      · next hrest =>
        cases h
        rw [List.length_cons, ih hrest]

namespace ProvingKey

variable {G₁ G₂ T : Type} {groups : PairingGroups Scalar G₁ G₂ T} {pk : ProvingKey Scalar G₁ G₂}
  {w : Witness Scalar}

/-- A prover that refuses leaves the source as it is. -/
theorem prove_of_error {error : Failure ProveError} (h : pk.prover groups w = .error error)
    (source : Source) : pk.prove groups w source = (.error error, source) := by
  rw [prove, h]

theorem prove_of_drawn {blind : Scalar → Scalar → Proof G₁ G₂} (h : pk.prover groups w = .ok blind)
    {source rest : Source} {r s : Scalar}
    (hdraw : drawAll Source.scalar? 2 source = (some [r, s], rest)) :
    pk.prove groups w source = (.ok (blind r s), rest) := by
  rw [prove, h]
  simp only [hdraw]

/-- A prover that accepts its key and its witness fails only for want of randomness. -/
theorem outcome_of_ok {blind : Scalar → Scalar → Proof G₁ G₂} (h : pk.prover groups w = .ok blind)
    (source : Source) :
    (∃ proof, (pk.prove groups w source).1 = .ok proof) ∨
      (pk.prove groups w source).1 = .error .exhausted ∧
        (drawAll Source.scalar? 2 source).1 = none := by
  cases hdraw : drawAll Source.scalar? 2 source with
  | mk drawn rest =>
    cases drawn with
    | none =>
      rw [prove, h]
      simp only [hdraw]
      exact .inr ⟨trivial, trivial⟩
    | some items =>
      obtain ⟨r, s, rfl⟩ := List.length_eq_two.mp (length_of_drawAll hdraw)
      rw [prove_of_drawn h hdraw]
      exact .inl ⟨_, rfl⟩

theorem prove_of_fitsDomain (hw : w.values.length = pk.numColumns) {log : Nat}
    (h : pk.FitsDomain log) (source : Source) :
    ∃ quotient, pk.program.quotient w.values =
        (.ok (some quotient) : Except (Failure ProveError) _) ∧
      pk.InRange ⟨log⟩ w.values quotient ∧
      ∀ r s rest, drawAll Source.scalar? 2 source = (some [r, s], rest) →
        pk.prove groups w source = (.ok (pk.blindedProof groups w.values quotient r s), rest) :=
  ⟨_, h.shape.quotient_eq h.domain? hw, h.inRange hw,
    fun _ _ _ => prove_of_drawn (prover_of_fitsDomain hw h)⟩

variable (groups pk w)

/-- Proving with any key, any witness and any source. A witness of another length than the queries of
the key is refused for its length. Otherwise a key whose parts do not fit together is refused. Otherwise
everything that the prover takes out of a list is in range, and there is a proof as soon as there are
two blinding scalars. No refusal takes anything from the source. -/
theorem prove_is_safe (source : Source) :
    ((pk.prove groups w source).1 =
        Failure.reject (.witnessLengthMismatch pk.aQuery.length w.values.length) ↔
      w.values.length ≠ pk.aQuery.length) ∧
    ((∃ fault, (pk.prove groups w source).1 = Failure.reject (.malformedKey fault)) ↔
      w.values.length = pk.aQuery.length ∧ ¬ ∃ log, pk.FitsDomain log) ∧
    (∀ log, w.values.length = pk.aQuery.length → pk.FitsDomain log →
      ∃ quotient, pk.program.quotient w.values =
          (.ok (some quotient) : Except (Failure ProveError) _) ∧
        pk.InRange ⟨log⟩ w.values quotient ∧
        ∀ r s rest, drawAll Source.scalar? 2 source = (some [r, s], rest) →
          pk.prove groups w source = (.ok (pk.blindedProof groups w.values quotient r s), rest)) ∧
    (pk.prove groups w source).1 ≠ .error .outOfRange ∧
    ((pk.prove groups w source).1 = .error .exhausted →
      (drawAll Source.scalar? 2 source).1 = none) ∧
    ∀ cause, (pk.prove groups w source).1 = Failure.reject cause →
      (pk.prove groups w source).2 = source := by
  by_cases hw : w.values.length = pk.aQuery.length
  · by_cases hfits : ∃ log, pk.FitsDomain log
    · obtain ⟨log, hlog⟩ := hfits
      have hprover : pk.prover groups w = _ := prover_of_fitsDomain hw hlog
      rcases outcome_of_ok hprover source with ⟨proof, hok⟩ | ⟨hexhausted, hdraw⟩
      · refine ⟨iff_of_false ?_ (not_not.mpr hw), iff_of_false ?_ fun h => h.2 ⟨log, hlog⟩,
          fun _ hw h => prove_of_fitsDomain hw h source, ?_, ?_, ?_⟩ <;> simp [hok, Failure.reject]
      · refine ⟨iff_of_false ?_ (not_not.mpr hw), iff_of_false ?_ fun h => h.2 ⟨log, hlog⟩,
          fun _ hw h => prove_of_fitsDomain hw h source, ?_, ?_, ?_⟩ <;>
          simp [hexhausted, hdraw, Failure.reject]
    · obtain ⟨fault, hprover⟩ : ∃ fault, pk.prover groups w = Failure.reject (.malformedKey fault) :=
        prover_of_not_fitsDomain hw (not_exists.mp hfits)
      rw [prove_of_error hprover]
      exact ⟨iff_of_false nofun (not_not.mpr hw), iff_of_true ⟨fault, rfl⟩ ⟨hw, hfits⟩,
        fun log _ h => absurd ⟨log, h⟩ hfits, nofun, nofun, fun _ _ => rfl⟩
  · rw [prove_of_error (prover_of_length_ne hw)]
    exact ⟨iff_of_true rfl hw, iff_of_false nofun fun h => hw h.1, fun _ h => absurd h hw, nofun,
      nofun, fun _ _ => rfl⟩

/-- A key for the constant column alone, over the exponents. Its program has no rows and the domain of
size one, so its quotient query is empty. -/
def unitKey : ProvingKey Scalar Scalar Scalar :=
  ⟨⟨1, 1, 1, 1, [1]⟩, 1, 1, [1], [1], [1], [], [], ⟨⟨[], 1⟩, ⟨[], 1⟩, ⟨[], 1⟩, 1⟩⟩

theorem unitKey_fitsDomain : unitKey.FitsDomain 0 where
  shape := by
    have hempty : unitKey.MatrixFits ⟨[], 1⟩ := ⟨rfl, rfl, nofun⟩
    exact ⟨rfl, rfl, rfl, rfl, hempty, hempty, hempty⟩
  available := Nat.zero_le _
  smallest k := iff_of_true Nat.one_le_two_pow (Nat.zero_le k)
  hQuery := rfl

/-- The key proves its one statement; with a point too many in its quotient query it is refused, and
so is a witness that is too short, both before a word is taken. -/
theorem prove_is_safe_unitKey :
    (∃ proof, (unitKey.prove (PairingGroups.exponentGroups Scalar) ⟨[1], 0⟩ (.ofScalars [2, 3])).1 =
        .ok proof) ∧
      (∃ fault, ({ unitKey with hQuery := [1] } : ProvingKey Scalar Scalar Scalar).prove
          (PairingGroups.exponentGroups Scalar) ⟨[1], 0⟩ (.ofScalars [2, 3]) =
        (Failure.reject (.malformedKey fault), .ofScalars [2, 3])) ∧
      (unitKey.prove (PairingGroups.exponentGroups Scalar) ⟨[], 0⟩ (.ofScalars [2, 3])).1 =
        Failure.reject (.witnessLengthMismatch 1 0) := by
  have hdraw : drawAll Source.scalar? 2 (.ofScalars [2, 3]) = (some [2, 3], .script []) := by
    decide +kernel
  refine ⟨?_, ?_, ?_⟩
  · obtain ⟨-, -, hok, -⟩ := prove_is_safe (PairingGroups.exponentGroups Scalar) unitKey ⟨[1], 0⟩
      (.ofScalars [2, 3])
    obtain ⟨quotient, -, -, hproof⟩ := hok 0 rfl unitKey_fitsDomain
    rw [hproof _ _ _ hdraw]
    exact ⟨_, rfl⟩
  · obtain ⟨-, hmalformed, -, -, -, hsource⟩ := prove_is_safe (PairingGroups.exponentGroups Scalar)
      { unitKey with hQuery := [1] } ⟨[1], 0⟩ (.ofScalars [2, 3])
    obtain ⟨fault, hfault⟩ := hmalformed.mpr ⟨rfl, fun ⟨log, h⟩ => by
      have hlog := (h.smallest 0).mp le_rfl
      have hquery := h.hQuery
      rw [Nat.le_zero.mp hlog] at hquery
      cases hquery⟩
    exact ⟨fault, Prod.ext hfault (hsource _ hfault)⟩
  · obtain ⟨hmismatch, -⟩ := prove_is_safe (PairingGroups.exponentGroups Scalar) unitKey ⟨[], 0⟩
      (.ofScalars [2, 3])
    exact hmismatch.mpr (by decide)

end ProvingKey

end CircuitProof
