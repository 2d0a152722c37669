import ProvingService.Onchain.GnarkProof

/-!
# On-chain proving of the embed proof

`prove_embed_onchain` first calls `ensure_gnark_downloads`, which panics when one of the gnark
files `vm_pk`, `vm_vk` and `vm_ccs` is missing from the download path. It then (re)creates the
dockerized gnark prover when it is not running, builds the on-chain witness of the embed proof,
sends it to the prover, and decodes the proof text it answers with
`decode_gnark_proof_to_bytes`, whose assert and `expect` panic on a text it cannot read. The
files, the container and the witness building are outside the repository's logic: what they
return is a parameter here.

The gateway's `Exit` arm runs `prove_embed_onchain` on the stored embed proof, logs an error
and sends no bytes in its place, and sends no bytes either when no embed proof is stored; only
then does it fire `completion_sender`. A panic of `prove_embed_onchain` ends the gateway's
thread first, and the sender is dropped unfired.
-/

set_option autoImplicit false

namespace ProvingService.Onchain

variable {E : Type}

/-- The files `ensure_gnark_downloads` requires in the download path. -/
def gnarkFiles : List String := ["vm_pk", "vm_vk", "vm_ccs"]

/-- What a panic of `prove_embed_onchain` reports. -/
inductive Panic where
  /-- `ensure_gnark_downloads`, with the files missing. -/
  | missingFiles (files : List String)
  /-- `decode_gnark_proof_to_bytes`, with the message of its assert or `expect`. -/
  | decode (message : String)
  deriving DecidableEq, Repr

/-- What `prove_embed_onchain` finds outside the embed proof. -/
structure Gnark (E : Type) where
  /-- Whether a file is in the download path of `BenchField::KoalaBear`. -/
  present : String → Bool
  /-- `recreate_gnark_prover` when the container is down, `build_onchain_witness_json` and
  `send_gnark_prove_task`: the error of the first that fails, or the proof text. -/
  prove : E → Except String (List Char)

/-- `ensure_gnark_downloads`. -/
def ensureGnarkDownloads (present : String → Bool) : Except Panic Unit :=
  let missingFiles := gnarkFiles.filter fun file => !present file
  if missingFiles.isEmpty then .ok () else .error (.missingFiles missingFiles)

/-- `prove_embed_onchain`: the outer `Except` is a panic, the inner one the `anyhow::Result`. -/
def proveEmbedOnchain (gnark : Gnark E) (embedProof : E) :
    Except Panic (Except String (List UInt8)) := do
  ensureGnarkDownloads gnark.present
  match gnark.prove embedProof with
  | .error e => pure (.error e)
  | .ok proofText => ((decodeGnarkProofToBytes proofText).mapError .decode).map .ok

/-- The gateway's `Exit` arm on the embed proof it stored, if any: the bytes it sends through
`completion_sender`, or the panic that ends its thread before. -/
def exitArm (gnark : Gnark E) : Option E → Except Panic (List UInt8)
  | some embedProof => (proveEmbedOnchain gnark embedProof).map fun result =>
    match result with
    | .ok bytes => bytes
    | .error _ => []
  | none => .ok []

/-- `prove_embed_onchain` returns on the embed proof: the files are downloaded, and a proof
text the prover answers decodes. -/
def Gnark.Returns (gnark : Gnark E) (embedProof : E) : Prop :=
  (∀ file ∈ gnarkFiles, gnark.present file = true) ∧
    ∀ proofText, gnark.prove embedProof = .ok proofText →
      ∃ bytes, decodeGnarkProofToBytes proofText = .ok bytes

/-- A gnark setup under which `prove_embed_onchain` does not panic: the files are downloaded,
and every proof text the prover answers is ten values as `ProofText` renders them. -/
structure Gnark.Ready (gnark : Gnark E) : Prop where
  downloaded : ∀ file ∈ gnarkFiles, gnark.present file = true
  rendered : ∀ embedProof proofText, gnark.prove embedProof = .ok proofText →
    ∃ text : ProofText, proofText = text.render

private theorem missing_isEmpty (present : String → Bool) :
    (gnarkFiles.filter fun file => !present file).isEmpty ↔ ∀ file ∈ gnarkFiles, present file = true := by
  simp [List.isEmpty_iff, List.filter_eq_nil_iff]

theorem ensureGnarkDownloads_ok_iff (present : String → Bool) :
    ensureGnarkDownloads present = .ok () ↔ ∀ file ∈ gnarkFiles, present file = true := by
  rw [← missing_isEmpty, ensureGnarkDownloads]
  split <;> simp_all

theorem ensureGnarkDownloads_error_iff (present : String → Bool) (panic : Panic) :
    ensureGnarkDownloads present = .error panic ↔ (∃ file ∈ gnarkFiles, present file = false) ∧
      panic = .missingFiles (gnarkFiles.filter fun file => !present file) := by
  have missing : (∃ file ∈ gnarkFiles, present file = false) ↔
      (gnarkFiles.filter fun file => !present file).isEmpty = false := by
    simp [missing_isEmpty present]
  rw [missing, ensureGnarkDownloads]
  split
  · rename_i none
    simp [none]
  · rename_i some
    rw [Bool.not_eq_true] at some
    simp only [Except.error.injEq, some, true_and]
    exact eq_comm

section Outcomes

variable (gnark : Gnark E)

/-- The `Exit` arm panics exactly on a missing file, with the files missing, or on a proof
text the decoder refuses, with the decoder's message. -/
theorem exitArm_error_iff (embedProof : Option E) (panic : Panic) :
    exitArm gnark embedProof = .error panic ↔ ∃ proof, embedProof = some proof ∧
      (ensureGnarkDownloads gnark.present = .error panic ∨
        ensureGnarkDownloads gnark.present = .ok () ∧ ∃ proofText message,
          gnark.prove proof = .ok proofText ∧ decodeGnarkProofToBytes proofText = .error message ∧
          panic = .decode message) := by
  cases embedProof with
  | none => simp [exitArm]
  | some proof =>
    cases ensured : ensureGnarkDownloads gnark.present with
    | error missing => simp [exitArm, proveEmbedOnchain, ensured, bind, Except.bind, Except.map]
    | ok _ =>
      cases answered : gnark.prove proof with
      | error e =>
        simp [exitArm, proveEmbedOnchain, ensured, answered, bind, Except.bind, Except.map, pure,
          Except.pure]
      | ok proofText =>
        cases decoded : decodeGnarkProofToBytes proofText <;>
          simp [exitArm, proveEmbedOnchain, ensured, answered, decoded, bind, Except.bind,
            Except.map, Except.mapError, eq_comm]

/-- The `Exit` arm sends bytes exactly when `prove_embed_onchain` returns on the stored embed
proof. -/
theorem exitArm_ok_iff (embedProof : Option E) :
    (∃ bytes, exitArm gnark embedProof = .ok bytes) ↔
      ∀ proof, embedProof = some proof → gnark.Returns proof := by
  constructor
  · rintro ⟨bytes, sent⟩ proof rfl
    have ensured : ensureGnarkDownloads gnark.present = .ok () := by
      cases checked : ensureGnarkDownloads gnark.present with
      | ok _ => rfl
      | error panic =>
        have panicked := (exitArm_error_iff gnark (some proof) panic).mpr ⟨proof, rfl, .inl checked⟩
        rw [sent] at panicked
        cases panicked
    refine ⟨(ensureGnarkDownloads_ok_iff _).mp ensured, fun proofText answered => ?_⟩
    cases decoded : decodeGnarkProofToBytes proofText with
    | ok bytes => exact ⟨bytes, rfl⟩
    | error message =>
      have panicked := (exitArm_error_iff gnark (some proof) (.decode message)).mpr
        ⟨proof, rfl, .inr ⟨ensured, proofText, message, answered, decoded, rfl⟩⟩
      rw [sent] at panicked
      cases panicked
  · intro returns
    cases sent : exitArm gnark embedProof with
    | ok bytes => exact ⟨bytes, rfl⟩
    | error panic =>
      obtain ⟨proof, rfl, missing | ⟨-, proofText, message, answered, refused, -⟩⟩ :=
        (exitArm_error_iff gnark embedProof panic).mp sent
      · obtain ⟨⟨file, member, absent⟩, -⟩ := (ensureGnarkDownloads_error_iff _ _).mp missing
        rw [(returns proof rfl).1 file member] at absent
        cases absent
      · obtain ⟨bytes, decoded⟩ := (returns proof rfl).2 proofText answered
        rw [decoded] at refused
        cases refused

end Outcomes

/-- A ready setup lets `prove_embed_onchain` return on every embed proof. -/
theorem Gnark.Ready.returns {gnark : Gnark E} (ready : gnark.Ready) (embedProof : E) :
    gnark.Returns embedProof := by
  refine ⟨ready.downloaded, fun proofText answered => ?_⟩
  obtain ⟨text, rfl⟩ := ready.rendered embedProof proofText answered
  exact ⟨_, (decodeGnarkProofToBytes_render text).1⟩

/-- Under a ready setup the `Exit` arm never panics. -/
theorem Gnark.Ready.exitArm_ok {gnark : Gnark E} (ready : gnark.Ready) (embedProof : Option E) :
    ∃ bytes, exitArm gnark embedProof = .ok bytes :=
  (exitArm_ok_iff gnark embedProof).mpr fun proof _ => ready.returns proof

end ProvingService.Onchain
