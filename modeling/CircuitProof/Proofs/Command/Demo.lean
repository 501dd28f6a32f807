import CircuitProof.Proofs.Argument.Completeness
import CircuitProof.Proofs.Argument.Safety
import CircuitProof.Proofs.Bn254.Pairing
import CircuitProof.Proofs.Circuit.Samples
import CircuitProof.Proofs.Command.Steps
import CircuitProof.Proofs.Encoding.Keys
import CircuitProof.Proofs.Encoding.ProofText
import CircuitProof.Proofs.Files.Directory

/-!
# The demonstration and the check agree

A demonstration writes the contract and the keys before it looks at its numbers, and proof and
inputs only once it has a witness. So it stops at numbers that do not add up with new keys, and with
the proof and the inputs of an earlier run. Where they add up, the proof verifies, and since the
files read back as what was written, the check comes to the same verdict.
-/

namespace CircuitProof

namespace Command

open Contract (groupsWith IsPairing)
open Storable (CountsFit Valid countLimit)

/-! ## The files -/

/-- The files that are written whatever the numbers are. -/
def keyFiles : List String := [contractFile, verifyingKeyFile, provingKeyFile]

/-- The files that hold a statement and its proof. -/
def statementFiles : List String := [proofFile, proofTextFile, inputFile]

def artifactFiles : List String := keyFiles ++ statementFiles

/-- The files that a demonstration comes to write. -/
def writtenFiles (options : DemoOptions) : List String :=
  if options.a + options.b = options.sum then artifactFiles else keyFiles

/-- Files of these names can be written in the directory one behind the other, and no file that has the
name of one of their temporary siblings has a second name. -/
structure Writable (disk : Disk) (suffix directory : String) (names : List String) : Prop where
  isTree : disk.IsTree
  suffix_ne : suffix ≠ ""
  unshared : ∀ name ∈ names, disk.Unshared ((Path.inside directory name).sibling suffix)
  writes : ∃ items later, items.map Prod.fst = names ∧ Disk.Writes suffix directory disk items later

/-- The file at the path is the encoding of the value and decodes to it. -/
structure Stores {α : Type} [Artifact α] [WordForm α] (disk : Disk) (path : Path) (v : α) : Prop where
  read : disk.read path = .ok (Artifact.encode v)
  decode : Artifact.decode (Artifact.encode v) = .ok v

theorem plainName_of_mem_artifactFiles : ∀ name ∈ artifactFiles, Path.PlainName name := by
  have hnames : ∀ name ∈ artifactFiles,
      name.toList ≠ [] ∧ '/' ∉ name.toList ∧ name ≠ "." := by decide
  intro name hname
  obtain ⟨hnonempty, hnoSlash, hdot⟩ := hnames name hname
  exact ⟨hnonempty, hnoSlash, hdot⟩

theorem apart_artifactFiles : Disk.Apart artifactFiles := by decide

theorem mem_artifactFiles_of_mem_keyFiles : ∀ name ∈ keyFiles, name ∈ artifactFiles := by decide

theorem plainName_of_mem_keyFiles : ∀ name ∈ keyFiles, Path.PlainName name := fun name hname =>
  plainName_of_mem_artifactFiles name (mem_artifactFiles_of_mem_keyFiles name hname)

theorem apart_keyFiles : Disk.Apart keyFiles := by decide

/-- Each of the files could be written as the first. -/
theorem Writable.accepts {disk : Disk} {suffix directory : String} {names : List String}
    (h : Writable disk suffix directory names) (hplain : ∀ name ∈ names, Path.PlainName name) :
    ∀ name ∈ names, disk.Accepts suffix (Path.inside directory name) := by
  obtain ⟨items, later, rfl, hwrites⟩ := h.writes
  have hitems : ∀ item ∈ items, Path.PlainName item.1 ∧
      disk.Unshared ((Path.inside directory item.1).sibling suffix) := fun item hitem =>
    have hname : item.1 ∈ items.map Prod.fst := List.mem_map_of_mem hitem
    ⟨hplain item.1 hname, h.unshared item.1 hname⟩
  exact List.forall_mem_map.mpr
    (Disk.accepts_of_writes h.suffix_ne h.isTree.numbered hitems hwrites)

/-- What is written to the files of the keys. -/
def keyItems (contract : VerifyingKey G1 G2 → String) (pk : ProvingKey Scalar G1 G2) :
    List (String × Bytes) :=
  [(contractFile, utf8 (contract pk.verifying)), (verifyingKeyFile, Artifact.encode pk.verifying),
    (provingKeyFile, Artifact.encode pk)]

/-- What is written to the files of a statement. -/
def statementItems (shown : List Scalar) (proof : Proof G1 G2) : List (String × Bytes) :=
  [(proofFile, Artifact.encode proof), (proofTextFile, utf8 (ProofText.ofProof proof).toJson),
    (inputFile, utf8 (stringsToJson (inputText shown)))]

theorem mem_keyFiles_of_mem_keyItems (contract : VerifyingKey G1 G2 → String)
    (pk : ProvingKey Scalar G1 G2) : ∀ item ∈ keyItems contract pk, item.1 ∈ keyFiles := by
  simp [keyItems, keyFiles]

theorem mem_artifactFiles_of_mem_items (contract : VerifyingKey G1 G2 → String)
    (pk : ProvingKey Scalar G1 G2) (shown : List Scalar) (proof : Proof G1 G2) :
    ∀ item ∈ keyItems contract pk ++ statementItems shown proof, item.1 ∈ artifactFiles := by
  simp [keyItems, statementItems, artifactFiles, keyFiles, statementFiles]

/-! ## Keys of the sum -/

section
variable {T : Type} {system : ConstraintSystem Scalar} {pk : ProvingKey Scalar G1 G2}

/-- Keys are generated from secrets, wherever these come from. -/
theorem exists_secrets_of_makeKeys {groups : PairingGroups Scalar G1 G2 T} {seed : Option Nat}
    {entropy rest : Source} (h : makeKeys groups system seed entropy = (.ok pk, rest)) :
    ∃ secrets : Secrets Scalar, secrets.generateKeys groups system = .ok pk := by
  have hfrom : ∀ source, (generateKeysFrom groups system source).1 = .ok pk →
      ∃ secrets : Secrets Scalar, secrets.generateKeys groups system = .ok pk := by
    intro source hsource
    rw [generateKeysFrom] at hsource
    split at hsource
    · cases hsource
    · next secrets _ _ => exact ⟨secrets, hsource⟩
  cases seed with
  | none =>
    rw [makeKeys] at h
    exact hfrom entropy (congrArg Prod.fst h)
  | some n =>
    rw [makeKeys, Prod.mk.injEq] at h
    exact hfrom _ h.1

theorem countsFit_sum : CountsFit (QuadraticProgram.ofSystem Circuit.sumSystem) := by
  have hcolumns : ∀ (column : Nat) (k : Scalar),
      column = 1 ∧ k = 1 ∨ column = 2 ∧ k = -1 ∨ column = 3 ∧ k = 1 → column < 4294967296 := by
    omega
  simpa [CountsFit, QuadraticProgram.ofSystem, Circuit.sumSystem, ConstraintSystem.numStatement,
    countLimit] using hcolumns

/-- The keys of the sum can be stored. -/
theorem valid_of_generates_sum {product? : List (G1 × G2) → Option T} {secrets : Secrets Scalar}
    {d : Domain} {values : ProgramValues Scalar}
    (h : secrets.Generates (groupsWith product?) Circuit.sumSystem pk d values) :
    Valid pk.verifying ∧ Valid pk := by
  have hsize : d.size ≤ countLimit :=
    Nat.pow_le_pow_right (by decide) (h.log_le.trans (by decide))
  exact ⟨h.valid_verifying (by decide), h.valid countsFit_sum (by decide) hsize⟩

end

/-! ## Runs -/

section
variable {T : Type} [Mul T] [DecidableEq T] {product? : List (G1 × G2) → Option T}
  {contract : VerifyingKey G1 G2 → String} {options : DemoOptions} {entropy rest : Source}
  {pk : ProvingKey Scalar G1 G2} {disk disk' : Disk} {suffix : String}

/-- Without a witness, the run ends with the contract and the keys. -/
theorem runOn_demo_of_error
    (hkeys : makeKeys (groupsWith product?) Circuit.sumSystem options.seed entropy =
      (.ok pk, rest))
    {e : Failure WitnessError}
    (hwitness : Circuit.sumSystem.generateWitnessNamed (sumAssignment options) = .error e)
    (hwrites : Disk.Writes suffix options.directory disk (keyItems contract pk) disk') :
    runOn (demo (.ofDisk suffix) (groupsWith product?) contract entropy options) disk =
      (.error ⟨some "the assignment does not satisfy A + B = Sum", .witness e⟩, disk') := by
  obtain ⟨disk₁, hcontract, disk₂, hkey, disk₃, hprovingKey, rfl⟩ := hwrites
  rw [demo, Circuit.compile_sum, runOn_bind_of_ok (runOn_result_ok _ _ _)]
  simp only [hkeys]
  rw [runOn_bind_of_ok (runOn_result_ok _ _ _),
    runOn_bind_of_ok (runOn_inContext_of_ok (runOn_writeFile hcontract)),
    runOn_bind_of_ok (runOn_writeFile hkey), runOn_bind_of_ok (runOn_writeFile hprovingKey), hwitness]
  apply runOn_bind_of_error
  rw [runOn_inContext, runOn_result_error]

/-- With a witness whose proof verifies, the run ends with all files. -/
theorem runOn_demo_of_ok
    (hkeys : makeKeys (groupsWith product?) Circuit.sumSystem options.seed entropy =
      (.ok pk, rest))
    {w : Witness Scalar}
    (hwitness : Circuit.sumSystem.generateWitnessNamed (sumAssignment options) = .ok w)
    {proof : Proof G1 G2} (hproof : (pk.prove (groupsWith product?) w rest).1 = .ok proof)
    (hverify : pk.verifying.verify (groupsWith product?) w.shown proof = .ok true)
    (hwrites : Disk.Writes suffix options.directory disk
      (keyItems contract pk ++ statementItems w.shown proof) disk') :
    runOn (demo (.ofDisk suffix) (groupsWith product?) contract entropy options) disk =
      (.ok (), disk') := by
  obtain ⟨disk₁, hcontract, disk₂, hkey, disk₃, hprovingKey, disk₄, hproofFile, disk₅, htext, disk₆,
    hinputs, rfl⟩ := hwrites
  rw [demo, Circuit.compile_sum, runOn_bind_of_ok (runOn_result_ok _ _ _)]
  simp only [hkeys]
  rw [runOn_bind_of_ok (runOn_result_ok _ _ _),
    runOn_bind_of_ok (runOn_inContext_of_ok (runOn_writeFile hcontract)),
    runOn_bind_of_ok (runOn_writeFile hkey), runOn_bind_of_ok (runOn_writeFile hprovingKey), hwitness,
    runOn_bind_of_ok (runOn_inContext_of_ok (runOn_result_ok _ _ _)), hproof,
    runOn_bind_of_ok (runOn_result_ok _ _ _), runOn_bind_of_ok (runOn_writeFile hproofFile),
    runOn_bind_of_ok (runOn_writeFile htext), runOn_bind_of_ok (runOn_writeFile hinputs), hverify,
    runOn_bind_of_ok (runOn_result_ok _ _ _), if_pos rfl, runOn_pure]

/-- The check accepts a directory whose key, proof and inputs verify. -/
theorem runOn_verify_of_read {directory : String} {vk : VerifyingKey G1 G2} {shown : List Scalar}
    {proof : Proof G1 G2} (hkey : Stores disk (Path.inside directory verifyingKeyFile) vk)
    (htext : disk.read (Path.inside directory proofTextFile) =
      .ok (utf8 (ProofText.ofProof proof).toJson))
    (hproof : Storable.Members proof)
    (hinputs : disk.read (Path.inside directory inputFile) =
      .ok (utf8 (stringsToJson (inputText shown))))
    (hverify : vk.verify (groupsWith product?) shown proof = .ok true) :
    runOn (verify (.ofDisk suffix) (groupsWith product?) ⟨directory, none, none, none⟩) disk =
      (.ok (), disk) := by
  simp only [verify, Option.getD_none]
  rw [runOn_bind_of_ok (runOn_load hkey.read hkey.decode),
    runOn_bind_of_ok (runOn_load htext (ProofText.ofJson_toJson _)),
    runOn_bind_of_ok (runOn_load hinputs (stringsOfJson_stringsToJson _)),
    ProofText.toProof_ofProof hproof, runOn_bind_of_ok (runOn_result_ok _ _ _),
    ofInputText_inputText, runOn_bind_of_ok (runOn_result_ok _ _ _), hverify,
    runOn_bind_of_ok (runOn_result_ok _ _ _), if_pos rfl, runOn_pure]

/-! ## Verdicts -/

theorem stores_of_valid {α : Type} [Artifact α] [WordForm α] [Storable α] [WordForm.Exact α]
    {path : Path} {v : α} (hread : disk.read path = .ok (Artifact.encode v)) (hvalid : Valid v) :
    Stores disk path v where
  read := hread
  decode := (Artifact.oneEncoding _ _).mpr ⟨rfl, hvalid⟩

/-- Where the numbers do not add up there is no witness. -/
theorem exists_witness_error
    (hne : (options.a : Scalar) + (options.b : Scalar) ≠ (options.sum : Scalar)) :
    ∃ e, Circuit.sumSystem.generateWitnessNamed (sumAssignment options) = .error e := by
  cases hgenerated : Circuit.sumSystem.generateWitnessNamed (sumAssignment options) with
  | error e => exact ⟨e, rfl⟩
  | ok w => exact absurd (Circuit.exists_witness_sum_iff.mp ⟨w, hgenerated⟩) hne

/-- Where the numbers do not add up the run stops behind the keys. -/
theorem exists_demo_of_ne (contract : VerifyingKey G1 G2 → String)
    (hkeys : makeKeys (groupsWith product?) Circuit.sumSystem options.seed entropy =
      (.ok pk, rest))
    (hdisk : Writable disk suffix options.directory keyFiles)
    (hne : (options.a : Scalar) + (options.b : Scalar) ≠ (options.sum : Scalar)) :
    ∃ disk' error,
      runOn (demo (.ofDisk suffix) (groupsWith product?) contract entropy options) disk =
        (.error error, disk') ∧
      (∀ name ∈ statementFiles, disk.Kept disk' (Path.inside options.directory name)) ∧
      Stores disk' (Path.inside options.directory verifyingKeyFile) pk.verifying ∧
      Stores disk' (Path.inside options.directory provingKeyFile) pk := by
  obtain ⟨secrets, hgenerate⟩ := exists_secrets_of_makeKeys hkeys
  obtain ⟨d, values, h⟩ := Secrets.generates_of_generateKeys hgenerate
  obtain ⟨hverifying, hvalid⟩ := valid_of_generates_sum h
  obtain ⟨e, hwitness⟩ := exists_witness_error hne
  have hitems := mem_keyFiles_of_mem_keyItems contract pk
  obtain ⟨below, base, disk', hwrites, hwrote, hmade⟩ :=
    Disk.exists_writes_of_accepts hdisk.suffix_ne hdisk.isTree.numbered apart_keyFiles
      plainName_of_mem_keyFiles (hdisk.accepts plainName_of_mem_keyFiles)
      fun item hitem => ⟨hitems item hitem, hdisk.unshared _ (hitems item hitem)⟩
  refine ⟨disk', _, runOn_demo_of_error hkeys hwitness hwrites, fun name hname => ?_, ?_, ?_⟩
  · have hplain : Path.PlainName name :=
      plainName_of_mem_artifactFiles name (List.mem_append_right keyFiles hname)
    have hapart : ∀ name ∈ statementFiles, ∀ other ∈ keyFiles.reverse,
        ¬ other.toList <+: name.toList := by
      decide
    exact hwrote.kept hdisk.isTree (hmade name hplain) hplain (hapart name hname)
  · exact stores_of_valid (hwrote.read_eq (by decide) rfl) hverifying
  · exact stores_of_valid (hwrote.read_eq (by decide) rfl) hvalid

variable {R : Type} [One T] [CommGroup R] {value : R → T} {pair : G1 → G2 → R}

/-- Where the numbers add up there is a witness, and its proof verifies. -/
theorem exists_proof_of_eq (hpairing : IsPairing product? value pair)
    (hkeys : makeKeys (groupsWith product?) Circuit.sumSystem options.seed entropy =
      (.ok pk, rest))
    (hdraws : (drawAll Source.scalar? 2 rest).1 ≠ none)
    (heq : (options.a : Scalar) + (options.b : Scalar) = (options.sum : Scalar)) :
    ∃ w proof, Circuit.sumSystem.generateWitnessNamed (sumAssignment options) = .ok w ∧
      (pk.prove (groupsWith product?) w rest).1 = .ok proof ∧
      pk.verifying.verify (groupsWith product?) w.shown proof = .ok true ∧
      Valid pk.verifying := by
  obtain ⟨secrets, hgenerate⟩ := exists_secrets_of_makeKeys hkeys
  obtain ⟨d, values, h⟩ := Secrets.generates_of_generateKeys hgenerate
  obtain ⟨hverifying, -⟩ := valid_of_generates_sum h
  obtain ⟨w, hwitness⟩ := Circuit.exists_witness_sum_iff.mpr heq
  have hsatisfies :=
    ConstraintSystem.satisfies_of_generateWitness (.compiled Circuit.compile_sum) hwitness
  obtain ⟨r, s, rest', hdrawn⟩ :
      ∃ r s rest', drawAll Source.scalar? 2 rest = (some [r, s], rest') := by
    cases hdrawn : drawAll Source.scalar? 2 rest with
    | mk drawn rest' =>
      rw [hdrawn] at hdraws
      obtain ⟨items, rfl⟩ := Option.ne_none_iff_exists'.mp hdraws
      obtain ⟨r, s, rfl⟩ := List.length_eq_two.mp (length_of_drawAll hdrawn)
      exact ⟨r, s, rest', rfl⟩
  have hproof := ProvingKey.prove_of_drawn (h.prover_eq hsatisfies.length_values) hdrawn
  have hverify := h.verify_blindedProof hpairing.lawful hsatisfies r s
  exact ⟨w, _, hwitness, congrArg Prod.fst hproof, hverify, hverifying⟩

/-- Where the numbers add up the run stores what the check accepts. -/
theorem exists_demo_of_eq (hpairing : IsPairing product? value pair)
    (contract : VerifyingKey G1 G2 → String)
    (hkeys : makeKeys (groupsWith product?) Circuit.sumSystem options.seed entropy =
      (.ok pk, rest))
    (hdraws : (drawAll Source.scalar? 2 rest).1 ≠ none)
    (hdisk : Writable disk suffix options.directory artifactFiles)
    (heq : (options.a : Scalar) + (options.b : Scalar) = (options.sum : Scalar)) :
    ∃ disk',
      runOn (demo (.ofDisk suffix) (groupsWith product?) contract entropy options) disk =
        (.ok (), disk') ∧
      runOn (verify (.ofDisk suffix) (groupsWith product?) ⟨options.directory, none, none, none⟩)
        disk' = (.ok (), disk') := by
  obtain ⟨w, proof, hwitness, hproof, hverify, hverifying⟩ :=
    exists_proof_of_eq hpairing hkeys hdraws heq
  have hmembers := Proof.malformed?_eq_none_iff.mp (malformed?_of_verify hverify)
  have hitems := mem_artifactFiles_of_mem_items contract pk w.shown proof
  obtain ⟨below, base, disk', hwrites, hwrote, -⟩ :=
    Disk.exists_writes_of_accepts hdisk.suffix_ne hdisk.isTree.numbered apart_artifactFiles
      plainName_of_mem_artifactFiles (hdisk.accepts plainName_of_mem_artifactFiles)
      fun item hitem => ⟨hitems item hitem, hdisk.unshared _ (hitems item hitem)⟩
  exact ⟨disk', runOn_demo_of_ok hkeys hwitness hproof hverify hwrites, runOn_verify_of_read
    (stores_of_valid (hwrote.read_eq (by decide) rfl) hverifying)
    (hwrote.read_eq (by decide) rfl) hmembers (hwrote.read_eq (by decide) rfl) hverify⟩

/-- A demonstration succeeds exactly if its numbers add up, and the check of the directory that it
leaves then succeeds as well. If they do not add up, the paths of proof and inputs keep what they led
to, and the new keys are stored. -/
theorem demo_verify_agree (hpairing : IsPairing product? value pair)
    (contract : VerifyingKey G1 G2 → String) {system : ConstraintSystem Scalar}
    (hcompile : (Circuit.sum : Circuit Scalar).compile .reject = .ok system)
    (ha : options.a < 2 ^ 64) (hb : options.b < 2 ^ 64) (hsum : options.sum < 2 ^ 64)
    (hkeys : makeKeys (groupsWith product?) system options.seed entropy = (.ok pk, rest))
    (hdraws : options.a + options.b = options.sum → (drawAll Source.scalar? 2 rest).1 ≠ none)
    (hdisk : Writable disk suffix options.directory (writtenFiles options)) :
    ∃ outcome disk',
      runOn (demo (.ofDisk suffix) (groupsWith product?) contract entropy options) disk =
        (outcome, disk') ∧
      (outcome = .ok () ↔ options.a + options.b = options.sum) ∧
      (outcome = .ok () →
        runOn (verify (.ofDisk suffix) (groupsWith product?)
          ⟨options.directory, none, none, none⟩) disk' = (.ok (), disk')) ∧
      (options.a + options.b ≠ options.sum →
        (∃ error, outcome = .error error) ∧
        (∀ name ∈ statementFiles, disk.Kept disk' (Path.inside options.directory name)) ∧
        Stores disk' (Path.inside options.directory verifyingKeyFile) pk.verifying ∧
        Stores disk' (Path.inside options.directory provingKeyFile) pk) := by
  obtain rfl := Except.ok.inj (hcompile.symm.trans Circuit.compile_sum)
  have hiff := Circuit.natCast_add_eq_iff ha hb hsum
  by_cases hadds : options.a + options.b = options.sum
  · rw [writtenFiles, if_pos hadds] at hdisk
    obtain ⟨disk', hrun, hverify⟩ :=
      exists_demo_of_eq hpairing contract hkeys (hdraws hadds) hdisk (hiff.mpr hadds)
    exact ⟨_, disk', hrun, iff_of_true rfl hadds, fun _ => hverify, fun hne => absurd hadds hne⟩
  · rw [writtenFiles, if_neg hadds] at hdisk
    obtain ⟨disk', error, hrun, hkept, hkey, hprovingKey⟩ :=
      exists_demo_of_ne contract hkeys hdisk (mt hiff.mp hadds)
    exact ⟨_, disk', hrun, iff_of_false (by simp) hadds, fun hok => (by simp at hok),
      fun _ => ⟨⟨error, rfl⟩, hkept, hkey, hprovingKey⟩⟩

end

/-! ## Sample runs -/

/-- The scalars of five secrets and of two blinding factors. -/
def sampleSource : Source := .ofScalars [11, 2, 3, 5, 7, 13, 17]

/-- The five secrets take the first scalars of the script and leave two for the prover. -/
theorem exists_sampleKeys : ∃ pk,
    makeKeys (groupsWith Contract.logarithmProduct?) Circuit.sumSystem none sampleSource =
      (.ok pk, .ofScalars [13, 17]) := by
  have hdraw : Secrets.draw? sampleSource = (some ⟨11, 2, 3, 5, 7⟩, .ofScalars [13, 17]) := by
    decide +kernel
  obtain ⟨pk, values, hgenerate, -⟩ := Secrets.exists_generates ⟨11, 2, 3, 5, 7⟩
    (groupsWith Contract.logarithmProduct?) (s := Circuit.sumSystem) (d := ⟨2⟩)
    (by decide +kernel) (by decide +kernel) (by decide +kernel) (by decide) (by decide)
  refine ⟨pk, ?_⟩
  rw [makeKeys, generateKeysFrom, hdraw]
  simp only [hgenerate]

theorem sample_draws : (drawAll Source.scalar? 2 (.ofScalars [13, 17])).1 ≠ none := by decide +kernel

/-- Two and three, with what they should add up to. -/
def sampleOptions (directory : String) (total : Nat) : DemoOptions := ⟨directory, none, 2, 3, total⟩

/-- A demonstration with the sample keys. -/
noncomputable def sampleDemo (directory : String) (total : Nat) : Steps (StateM Disk) Unit :=
  demo (.ofDisk ".tmp-7") (groupsWith Contract.logarithmProduct?) Contract.text sampleSource
    (sampleOptions directory total)

theorem accepts_of_ok {disk : Disk} {directory : String} {names : List String}
    (h : ∀ name ∈ names, (disk.writeAtomic ".tmp-7" (Path.inside directory name) []).1 = .ok ()) :
    ∀ name ∈ names, disk.Accepts ".tmp-7" (Path.inside directory name) :=
  fun name hname => ⟨[], _, Prod.ext (h name hname) rfl⟩

/-- Every file of a demonstration can be written in a directory of an empty disk. -/
theorem writable_empty {names : List String} (hnames : ∀ name ∈ names, name ∈ artifactFiles) :
    Writable .empty ".tmp-7" "out" names := by
  have haccepts : ∀ name ∈ artifactFiles, Disk.empty.Accepts ".tmp-7" (Path.inside "out" name) :=
    accepts_of_ok (by decide +kernel)
  have hitems : ∀ item ∈ names.map fun name => (name, ([] : Bytes)), item.1 ∈ artifactFiles ∧
      Disk.empty.Unshared ((Path.inside "out" item.1).sibling ".tmp-7") :=
    List.forall_mem_map.mpr fun name hname => ⟨hnames name hname, Disk.unshared_empty _⟩
  obtain ⟨later, hwrites⟩ :
      ∃ later, Disk.Writes ".tmp-7" "out" .empty (names.map fun name => (name, [])) later := by
    cases names with
    | nil => exact ⟨.empty, rfl⟩
    | cons name names =>
      rw [List.map_cons] at hitems ⊢
      obtain ⟨below, base, later, hwrites, -⟩ :=
        Disk.exists_writes_of_accepts (by decide) Disk.numbered_empty apart_artifactFiles
          plainName_of_mem_artifactFiles haccepts hitems
      exact ⟨later, hwrites⟩
  refine ⟨Disk.isTree_empty, by decide, fun _ _ => Disk.unshared_empty _, _, later, ?_, hwrites⟩
  rw [List.map_map]
  exact List.map_id names

/-- Two and three make five, and the check agrees; they do not make six. -/
theorem demo_verify_agree_fiveAndSix :
    Writable .empty ".tmp-7" "out" artifactFiles ∧
      (∃ disk', runOn (sampleDemo "out" 5) .empty = (.ok (), disk') ∧
        runOn (verify (.ofDisk ".tmp-7") (groupsWith Contract.logarithmProduct?)
          ⟨"out", none, none, none⟩) disk' = (.ok (), disk')) ∧
      ∃ error disk', runOn (sampleDemo "out" 6) .empty = (.error error, disk') ∧
        ∀ name ∈ statementFiles, Disk.empty.Kept disk' (Path.inside "out" name) := by
  obtain ⟨pk, hkeys⟩ := exists_sampleKeys
  have hsmall : ∀ total, (sampleOptions "out" total).a < 2 ^ 64 ∧
      (sampleOptions "out" total).b < 2 ^ 64 := by
    simp [sampleOptions]
  obtain ⟨outcome, disk', hrun, hiff, hverify, -⟩ :=
    demo_verify_agree Contract.isPairing_logarithm Contract.text Circuit.compile_sum
      (hsmall 5).1 (hsmall 5).2 (by decide) hkeys (fun _ => sample_draws)
      (writable_empty fun _ hname => hname)
  obtain ⟨outcome', disk'', hrun', -, -, hrefused⟩ :=
    demo_verify_agree Contract.isPairing_logarithm Contract.text Circuit.compile_sum
      (hsmall 6).1 (hsmall 6).2 (by decide) hkeys (fun _ => sample_draws)
      (writable_empty mem_artifactFiles_of_mem_keyFiles)
  have hok := hiff.mpr rfl
  obtain ⟨⟨error, rfl⟩, hkept, -⟩ := hrefused (by decide)
  exact ⟨writable_empty fun _ hname => hname, ⟨disk', hok ▸ hrun, hverify hok⟩, error, disk'', hrun',
    hkept⟩

/-! ## What else a run can change

A directory that is made on the way may be what a path with `..` leads to, and a temporary name that is
there already may be a second name of another file.
-/

theorem sample_sum_iff (directory : String) {total : Nat} (htotal : total < 2 ^ 64) :
    ((sampleOptions directory total).a : Scalar) + ((sampleOptions directory total).b : Scalar) =
      ((sampleOptions directory total).sum : Scalar) ↔ 2 + 3 = total :=
  Circuit.natCast_add_eq_iff (show 2 < 2 ^ 64 by decide) (show 3 < 2 ^ 64 by decide) htotal

theorem sample_witness_error (directory : String) : ∃ e,
    Circuit.sumSystem.generateWitnessNamed (sumAssignment (sampleOptions directory 6)) = .error e :=
  exists_witness_error (mt (sample_sum_iff directory (by decide)).mp (by decide))

theorem sample_witness : ∃ w,
    Circuit.sumSystem.generateWitnessNamed (sumAssignment (sampleOptions "out" 5)) = .ok w ∧
      w.shown = [2, 5] := by
  refine ⟨_, rfl, ?_⟩
  decide +kernel

/-- The directory is reached through the name of the proof, which becomes one of a directory. -/
theorem sampleDemo_makes_directory :
    ∃ e disk', runOn (sampleDemo "proof.bin/.." 6) .empty =
        (.error ⟨some "the assignment does not satisfy A + B = Sum", .witness e⟩, disk') ∧
      Disk.empty.lookUp (Path.inside "proof.bin/.." proofFile) = .error .notFound ∧
      disk'.lookUp (Path.inside "proof.bin/.." proofFile) = .ok (["proof.bin"], .directory) := by
  obtain ⟨pk, hkeys⟩ := exists_sampleKeys
  obtain ⟨e, hwitness⟩ := sample_witness_error "proof.bin/.."
  have haccepts : ∀ name ∈ keyFiles, Disk.empty.Accepts ".tmp-7" (Path.inside "proof.bin/.." name) :=
    accepts_of_ok (by decide +kernel)
  have hitems := mem_keyFiles_of_mem_keyItems Contract.text pk
  obtain ⟨below, base, disk', hwrites, hwrote, hmade⟩ :=
    Disk.exists_writes_of_accepts (by decide) Disk.numbered_empty apart_keyFiles
      plainName_of_mem_keyFiles haccepts
      fun item hitem => ⟨hitems item hitem, Disk.unshared_empty _⟩
  refine ⟨e, disk', runOn_demo_of_error hkeys hwitness hwrites, rfl, ?_⟩
  have hplain := plainName_of_mem_artifactFiles proofFile (by decide)
  have hapart : ∀ other ∈ keyFiles.reverse, ¬ other.toList <+: proofFile.toList := by decide
  apply (hwrote.sameDirectories.lookUp_iff (hwrote.sameAt_of_leads hplain hapart)).mpr
  have hbelow : (Disk.empty.makeDirectories (Path.inside "proof.bin/.." proofFile).parent).2.lookUp
      (Path.inside "proof.bin/.." proofFile) = .ok (["proof.bin"], .directory) := by
    decide +kernel
  rwa [hmade proofFile hplain] at hbelow

/-- A disk on which the temporary sibling of the proving key is there and is the proof. -/
def linkedProof : Disk :=
  ⟨[(["out"], .directory), (["out", "test.pk.tmp-7"], .file 0), (["out", "proof.bin"], .file 0)],
    [(0, [1])], 1⟩

theorem linkedProof_writes (contract key : Bytes) : ∃ between,
    Disk.Writes ".tmp-7" "out" linkedProof [(contractFile, contract), (verifyingKeyFile, key)] between ∧
      linkedProof.Wrote between ".tmp-7" "out" keyFiles ["out"]
        [(verifyingKeyFile, key), (contractFile, contract)] := by
  have hunshared : ∀ name ∈ [contractFile, verifyingKeyFile], name ∈ keyFiles ∧
      linkedProof.Unshared ((Path.inside "out" name).sibling ".tmp-7") := by
    simp only [List.forall_mem_cons]
    exact ⟨⟨by decide, Disk.unshared_of_entries (by decide +kernel)⟩,
      ⟨by decide, Disk.unshared_of_entries (by decide +kernel)⟩, nofun⟩
  have hthere : linkedProof.makeDirectories (Path.inside "out" contractFile).parent =
      (.ok (), linkedProof) := rfl
  have hbase : linkedProof.locate (Path.inside "out" contractFile) =
      .ok (.name (["out"] ++ [contractFile]) false) := rfl
  exact Disk.exists_writes_of_there (by decide) (Disk.numbered_of_entries (by simp [linkedProof]))
    apart_keyFiles plainName_of_mem_keyFiles (accepts_of_ok (by decide +kernel)) hthere hbase
    (by simpa using hunshared)

/-- The proof is overwritten with the proving key, which went to the same file. -/
theorem sampleDemo_overwrites_proof :
    ∃ e disk', runOn (sampleDemo "out" 6) linkedProof =
        (.error ⟨some "the assignment does not satisfy A + B = Sum", .witness e⟩, disk') ∧
      linkedProof.read (Path.inside "out" proofFile) = .ok [1] ∧
      disk'.read (Path.inside "out" proofFile) ≠ .ok [1] := by
  obtain ⟨pk, hkeys⟩ := exists_sampleKeys
  obtain ⟨e, hwitness⟩ := sample_witness_error "out"
  obtain ⟨between, hwrites, hwrote⟩ :=
    linkedProof_writes (utf8 (Contract.text pk.verifying)) (Artifact.encode pk.verifying)
  have hsame : ∀ name ∈ ["test.pk.tmp-7", "test.pk", "proof.bin"],
      between.occupant? ["out", name] = linkedProof.occupant? ["out", name] := by
    have hapart : ∀ name ∈ ["test.pk.tmp-7", "test.pk", "proof.bin"],
        ∀ other ∈ [verifyingKeyFile, contractFile], ¬ other.toList <+: name.toList := by
      decide
    exact fun name hname => (hwrote.same name (hapart name hname)).1
  have hready : between.Ready (Path.inside "out" provingKeyFile)
      ((Path.inside "out" provingKeyFile).sibling ".tmp-7") ["out", "test.pk"]
      ["out", "test.pk.tmp-7"] := hwrote.ready (by decide) rfl
  have hfree : between.occupant? ["out", "test.pk"] ≠ some (.file 0) := by
    rw [hsame _ (by decide)]
    decide
  obtain ⟨disk', hwrite, hshows⟩ :=
    hready.exists_shows (hsame _ (by decide)) hfree (Artifact.encode pk)
  have hlinked : disk'.occupant? ["out", "proof.bin"] = some (.file 0) :=
    (hshows.names _ (by decide) (by decide)).trans (hsame _ (by decide))
  refine ⟨e, disk', runOn_demo_of_error hkeys hwitness ?_, rfl, fun hread => ?_⟩
  · have hwrites' : Disk.Writes ".tmp-7" "out" between [(provingKeyFile, Artifact.encode pk)] disk' :=
      ⟨disk', hwrite, rfl⟩
    exact Disk.writes_append.mpr ⟨between, hwrites, hwrites'⟩
  · have hproof : linkedProof.locate (Path.inside "out" proofFile) =
        .ok (.name ["out", "proof.bin"] false) := rfl
    have hkeeps := hwrote.sameDirectories.trans hshows.sameDirectories
    rw [Disk.read_eq_ok_iff (hkeeps.1.locate hproof), Disk.fileAt?_of_occupant hlinked,
      hshows.written] at hread
    simp [Artifact.encode, Artifact.header, Artifact.magic] at hread

/-- A disk on which the temporary siblings of the proof text and of the inputs are one file. -/
def linkedTemporaries : Disk :=
  ⟨[(["out"], .directory), (["out", "proof.json.tmp-7"], .file 0),
    (["out", "input.json.tmp-7"], .file 0)], [(0, [])], 1⟩

theorem linkedTemporaries_writes (contract key provingKey proof : Bytes) : ∃ between,
    Disk.Writes ".tmp-7" "out" linkedTemporaries [(contractFile, contract), (verifyingKeyFile, key),
        (provingKeyFile, provingKey), (proofFile, proof)] between ∧
      linkedTemporaries.Wrote between ".tmp-7" "out" artifactFiles ["out"] [(proofFile, proof),
        (provingKeyFile, provingKey), (verifyingKeyFile, key), (contractFile, contract)] := by
  have hunshared : ∀ name ∈ [contractFile, verifyingKeyFile, provingKeyFile, proofFile],
      name ∈ artifactFiles ∧
        linkedTemporaries.Unshared ((Path.inside "out" name).sibling ".tmp-7") := by
    simp only [List.forall_mem_cons]
    exact ⟨⟨by decide, Disk.unshared_of_entries (by decide +kernel)⟩,
      ⟨by decide, Disk.unshared_of_entries (by decide +kernel)⟩,
      ⟨by decide, Disk.unshared_of_entries (by decide +kernel)⟩,
      ⟨by decide, Disk.unshared_of_entries (by decide +kernel)⟩, nofun⟩
  have hthere : linkedTemporaries.makeDirectories (Path.inside "out" contractFile).parent =
      (.ok (), linkedTemporaries) := rfl
  have hbase : linkedTemporaries.locate (Path.inside "out" contractFile) =
      .ok (.name (["out"] ++ [contractFile]) false) := rfl
  exact Disk.exists_writes_of_there (by decide)
    (Disk.numbered_of_entries (by simp [linkedTemporaries])) apart_artifactFiles
    plainName_of_mem_artifactFiles (accepts_of_ok (by decide +kernel)) hthere hbase
    (by simpa using hunshared)

/-- Whoever writes the text and then the inputs has the inputs under both names. -/
theorem linkedTemporaries_mixes {written : List (String × Bytes)} {between : Disk}
    (h : linkedTemporaries.Wrote between ".tmp-7" "out" artifactFiles ["out"] written)
    (hnames : written.map Prod.fst = [proofFile, provingKeyFile, verifyingKeyFile, contractFile])
    (text inputs : Bytes) : ∃ disk',
      Disk.Writes ".tmp-7" "out" between [(proofTextFile, text), (inputFile, inputs)] disk' ∧
      disk'.read (Path.inside "out" proofTextFile) = .ok inputs ∧
      ∀ held, between.read (Path.inside "out" verifyingKeyFile) = .ok held →
        disk'.read (Path.inside "out" verifyingKeyFile) = .ok held := by
  have hsame : ∀ name ∈ ["proof.json.tmp-7", "input.json.tmp-7", "proof.json", "input.json"],
      between.occupant? ["out", name] = linkedTemporaries.occupant? ["out", name] := by
    have hapart : ∀ name ∈ ["proof.json.tmp-7", "input.json.tmp-7", "proof.json", "input.json"],
        ∀ other ∈ [proofFile, provingKeyFile, verifyingKeyFile, contractFile],
          ¬ other.toList <+: name.toList := by
      decide
    exact fun name hname => (h.same name (hnames ▸ hapart name hname)).1
  have hready : between.Ready (Path.inside "out" proofTextFile)
      ((Path.inside "out" proofTextFile).sibling ".tmp-7") ["out", "proof.json"]
      ["out", "proof.json.tmp-7"] := h.ready (by decide) rfl
  have hready' : between.Ready (Path.inside "out" inputFile)
      ((Path.inside "out" inputFile).sibling ".tmp-7") ["out", "input.json"]
      ["out", "input.json.tmp-7"] := h.ready (by decide) rfl
  have hfree : between.occupant? ["out", "proof.json"] ≠ some (.file 0) := by
    rw [hsame _ (by decide)]
    decide
  obtain ⟨mixed, hwrite, hshows⟩ := hready.exists_shows (hsame _ (by decide)) hfree text
  have hrest : ∀ name ∈ ["input.json.tmp-7", "input.json"],
      mixed.occupant? ["out", name] = linkedTemporaries.occupant? ["out", name] := by
    simp only [List.forall_mem_cons]
    exact ⟨(hshows.names _ (by decide) (by decide)).trans (hsame _ (by decide)),
      (hshows.names _ (by decide) (by decide)).trans (hsame _ (by decide)), nofun⟩
  have hfree' : mixed.occupant? ["out", "input.json"] ≠ some (.file 0) := by
    rw [hrest _ (by decide)]
    decide
  obtain ⟨disk', hwrite', hshows'⟩ :=
    (hready'.keeps hshows.sameDirectories).exists_shows (hrest _ (by decide)) hfree' inputs
  have hsameDirectories := hshows.sameDirectories.trans hshows'.sameDirectories
  refine ⟨disk', ⟨mixed, hwrite, disk', hwrite', rfl⟩, ?_, fun held hread => ?_⟩
  · have hlinked : disk'.occupant? ["out", "proof.json"] = some (.file 0) :=
      (hshows'.names _ (by decide) (by decide)).trans hshows.here
    rw [Disk.read_eq_ok_iff (hsameDirectories.1.locate hready.locate_target)]
    exact (Disk.fileAt?_of_occupant hlinked).trans (congrArg some hshows'.written)
  · have hkey := h.locate_eq (show verifyingKeyFile ∈ artifactFiles by decide)
    -- the key was written to a file of its own
    have hsole := h.sole ["out", "test.vk"] fun _ _ hfile => absurd hfile nofun
    have hnumber : between.occupant? ["out", "test.vk"] ≠ some (.file 0) := fun hfile =>
      absurd (hsole _ 0 hfile (hsame "proof.json.tmp-7" (by decide))) (by decide)
    have hnumber' : mixed.occupant? ["out", "test.vk"] ≠ some (.file 0) := by
      rwa [hshows.names _ (by decide) (by decide)]
    rw [Disk.read_eq_ok_iff hkey] at hread
    rw [Disk.read_eq_ok_iff (hsameDirectories.1.locate hkey), ← hread]
    exact (hshows'.fileAt?_of_ne (by decide) (by decide) hnumber').trans
      (hshows.fileAt?_of_ne (by decide) (by decide) hnumber)

/-- A list of strings is no text of a proof. -/
theorem ofJson_inputs : ProofText.ofJson (utf8 (stringsToJson (inputText [2, 5]))) =
    .error .malformed := by
  decide +kernel

/-- The proof text is overwritten with the inputs, so that the check finds a list of strings. -/
theorem sampleDemo_overwrites_text :
    ∃ disk', runOn (sampleDemo "out" 5) linkedTemporaries = (.ok (), disk') ∧
      runOn (verify (.ofDisk ".tmp-7") (groupsWith Contract.logarithmProduct?)
        ⟨"out", none, none, none⟩) disk' =
          (.error ⟨some "loading out/proof.json", .artifact (.file .invalidData)⟩, disk') := by
  obtain ⟨pk, hkeys⟩ := exists_sampleKeys
  have heq := (sample_sum_iff "out" (show 5 < 2 ^ 64 by decide)).mpr rfl
  obtain ⟨w, proof, hwitness, hproof, hverify, hvalid⟩ :=
    exists_proof_of_eq Contract.isPairing_logarithm hkeys sample_draws heq
  have hshown : w.shown = [2, 5] := by
    obtain ⟨w', hwitness', hshown⟩ := sample_witness
    rw [← hshown, Except.ok.inj (hwitness.symm.trans hwitness')]
  have hvalid' := (Artifact.oneEncoding (Artifact.encode pk.verifying) pk.verifying).mpr ⟨rfl, hvalid⟩
  obtain ⟨between, hwrites, hwrote⟩ := linkedTemporaries_writes
    (utf8 (Contract.text pk.verifying)) (Artifact.encode pk.verifying) (Artifact.encode pk)
    (Artifact.encode proof)
  obtain ⟨disk', hwrites', htext, hkey⟩ := linkedTemporaries_mixes hwrote rfl
    (utf8 (ProofText.ofProof proof).toJson) (utf8 (stringsToJson (inputText w.shown)))
  have hread := hkey _ (hwrote.read_eq (by decide) rfl)
  rw [hshown] at htext
  have hall := Disk.writes_append.mpr ⟨between, hwrites, hwrites'⟩
  refine ⟨disk', runOn_demo_of_ok hkeys hwitness hproof hverify hall, ?_⟩
  · simp only [verify, Option.getD_none]
    rw [runOn_bind_of_ok (runOn_load hread hvalid')]
    apply runOn_bind_of_error
    exact runOn_load_of_error htext ofJson_inputs

/-- Without more about the disk than that the files can be written, a run that fails can put a directory
where there was no proof, or change the proof that there was, and a run that succeeds can leave what the
check refuses. -/
theorem demo_verify_disagree :
    (∃ e disk', runOn (sampleDemo "proof.bin/.." 6) .empty =
        (.error ⟨some "the assignment does not satisfy A + B = Sum", .witness e⟩, disk') ∧
      Disk.empty.lookUp (Path.inside "proof.bin/.." proofFile) = .error .notFound ∧
      disk'.lookUp (Path.inside "proof.bin/.." proofFile) = .ok (["proof.bin"], .directory)) ∧
    (∃ e disk', runOn (sampleDemo "out" 6) linkedProof =
        (.error ⟨some "the assignment does not satisfy A + B = Sum", .witness e⟩, disk') ∧
      linkedProof.read (Path.inside "out" proofFile) = .ok [1] ∧
      disk'.read (Path.inside "out" proofFile) ≠ .ok [1]) ∧
    ∃ disk', runOn (sampleDemo "out" 5) linkedTemporaries = (.ok (), disk') ∧
      runOn (verify (.ofDisk ".tmp-7") (groupsWith Contract.logarithmProduct?)
        ⟨"out", none, none, none⟩) disk' =
          (.error ⟨some "loading out/proof.json", .artifact (.file .invalidData)⟩, disk') :=
  ⟨sampleDemo_makes_directory, sampleDemo_overwrites_proof, sampleDemo_overwrites_text⟩

end Command

end CircuitProof
