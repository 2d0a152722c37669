import ProvingService.ProofTree.Basic

/-!
# Messages and the gateway handler

The message protocol of `proving/messages` and `GatewayHandler` of `gateway/handler/mod.rs`,
which applies protocol events to the proof tree and detects completion.
-/

set_option autoImplicit false

namespace ProvingService

/-- `RiscvRequest`; the emulation record it carries is opaque to the scheduler. -/
structure RiscvRequest where
  chunkIndex : Nat
  deriving DecidableEq, Repr

structure RiscvResponse (P : Type) where
  chunkIndex : Nat
  proof : IndexedProof P
  deriving DecidableEq, Repr

inductive RiscvMsg (P : Type) where
  | request (req : RiscvRequest)
  | response (res : RiscvResponse P)
  deriving DecidableEq, Repr

structure CombineRequest (P : Type) where
  flagComplete : Bool
  chunkIndex : Nat
  proofs : List (IndexedProof P)
  deriving DecidableEq, Repr

structure CombineResponse (P : Type) where
  chunkIndex : Nat
  proof : IndexedProof P
  deriving DecidableEq, Repr

inductive CombineMsg (P : Type) where
  | request (req : CombineRequest P)
  | response (res : CombineResponse P)
  deriving DecidableEq, Repr

/-- `GatewayMsg`, proofs of type `P` and embed proofs of type `E`. The task id and address
strings some variants carry are read by no modelled function. -/
inductive GatewayMsg (P E : Type) where
  | emulatorComplete
  | requestTask
  | riscv (msg : RiscvMsg P)
  | combine (msg : CombineMsg P)
  | embed (proof : E)
  | close
  | exit
  deriving DecidableEq, Repr

/-- Panic text of the catch-all arms. -/
def unsupported : String := "unsupported"

/-- Panic text of `process_riscv_req` on a riscv response. -/
def unexpectedRiscv : String := "unexpected message in process_riscv_req"

/-- Panic text of a failed `assert_eq!`. -/
def assertEqFailed : String := "assertion `left == right` failed"

/-- `GatewayHandler`, with the embed proof it stores once the worker's fast path succeeds. -/
structure GatewayHandler (P E : Type) where
  emulatorComplete : Bool
  proofTree : ProofTree P
  embedProof : Option E

namespace GatewayHandler

variable {P E : Type}

def new : GatewayHandler P E := ⟨false, .default, none⟩

def complete (h : GatewayHandler P E) : Bool := h.embedProof.isSome

def setEmbedProof (h : GatewayHandler P E) (proof : E) : GatewayHandler P E :=
  { h with embedProof := some proof }

/-- `process_riscv_req`: registers the slot of a chunk the emulator emitted. -/
def processRiscvReq (h : GatewayHandler P E) (msg : GatewayMsg P E) :
    Except String (GatewayHandler P E × Option (GatewayMsg P E)) :=
  match msg with
  | .riscv (.request req) => do
    let tree ← h.proofTree.initNode req.chunkIndex
    pure ({ h with proofTree := tree }, none)
  | .riscv (.response _) => throw unexpectedRiscv
  | _ => throw unsupported

/-- The first half of `process`: applies `msg` to the handler and returns the pair
`set_proof` handed out, with the slot it was handed out at. -/
def receive (h : GatewayHandler P E) (msg : GatewayMsg P E) :
    Except String (GatewayHandler P E × Option (Nat × List (IndexedProof P))) :=
  match msg with
  | .emulatorComplete => pure ({ h with emulatorComplete := true }, none)
  | .riscv (.request req) => do
    let tree ← h.proofTree.initNode req.chunkIndex
    pure ({ h with proofTree := tree }, none)
  | .riscv (.response ⟨chunkIndex, proof⟩) | .combine (.response ⟨chunkIndex, proof⟩) => do
    let (tree, proofs) ← h.proofTree.setProof chunkIndex proof
    pure ({ h with proofTree := tree }, proofs.map fun proofs => (chunkIndex, proofs))
  | .embed proof => pure (h.setEmbedProof proof, none)
  | _ => throw unsupported

/-- `process`: applies `msg`, then answers `Exit` once an embed proof is stored, else the
combine request for a pair `set_proof` handed out. The request is flagged complete when the
tree is down to one slot. -/
def process (h : GatewayHandler P E) (msg : GatewayMsg P E) :
    Except String (GatewayHandler P E × Option (GatewayMsg P E)) := do
  let (h, indexProofsToCombine) ← h.receive msg
  if h.complete then
    return (h, some .exit)
  match indexProofsToCombine with
  | some (chunkIndex, proofs) =>
    if proofs.length = 2 then
      return (h, some (.combine (.request ⟨h.proofTree.len == 1, chunkIndex, proofs⟩)))
    else throw assertEqFailed
  | none => return (h, none)

/-! ## What one message does -/

section Receive

variable {h h' : GatewayHandler P E} {msg : GatewayMsg P E}
  {pair : Option (Nat × List (IndexedProof P))}

/-- Everything `receive` can do, one disjunct per arm of the source's `match`. -/
theorem receive_cases (received : h.receive msg = .ok (h', pair)) :
    (msg = .emulatorComplete ∧ h' = { h with emulatorComplete := true } ∧ pair = none) ∨
    (∃ req tree, msg = .riscv (.request req) ∧ h.proofTree.initNode req.chunkIndex = .ok tree ∧
      h' = { h with proofTree := tree } ∧ pair = none) ∨
    (∃ chunkIndex proof tree proofs,
      (msg = .riscv (.response ⟨chunkIndex, proof⟩) ∨
        msg = .combine (.response ⟨chunkIndex, proof⟩)) ∧
      h.proofTree.setProof chunkIndex proof = .ok (tree, proofs) ∧
      h' = { h with proofTree := tree } ∧ pair = proofs.map fun proofs => (chunkIndex, proofs)) ∨
    (∃ proof, msg = .embed proof ∧ h' = h.setEmbedProof proof ∧ pair = none) := by
  cases msg with
  | emulatorComplete =>
    cases received
    exact .inl ⟨rfl, rfl, rfl⟩
  | riscv msg =>
    cases msg with
    | request req =>
      cases init : h.proofTree.initNode req.chunkIndex with
      | error failure => simp [receive, init, bind, Except.bind] at received
      | ok tree =>
        simp only [receive, init, bind, Except.bind, pure, Except.pure, Except.ok.injEq,
          Prod.mk.injEq] at received
        exact .inr (.inl ⟨req, tree, rfl, init, received.1.symm, received.2.symm⟩)
    | response res =>
      cases set : h.proofTree.setProof res.chunkIndex res.proof with
      | error failure => simp [receive, set, bind, Except.bind] at received
      | ok result =>
        simp only [receive, set, bind, Except.bind, pure, Except.pure, Except.ok.injEq,
          Prod.mk.injEq] at received
        exact .inr (.inr (.inl ⟨_, _, _, _, .inl rfl, set, received.1.symm, received.2.symm⟩))
  | combine msg =>
    cases msg with
    | request req => cases received
    | response res =>
      cases set : h.proofTree.setProof res.chunkIndex res.proof with
      | error failure => simp [receive, set, bind, Except.bind] at received
      | ok result =>
        simp only [receive, set, bind, Except.bind, pure, Except.pure, Except.ok.injEq,
          Prod.mk.injEq] at received
        exact .inr (.inr (.inl ⟨_, _, _, _, .inr rfl, set, received.1.symm, received.2.symm⟩))
  | embed proof =>
    cases received
    exact .inr (.inr (.inr ⟨proof, rfl, rfl, rfl⟩))
  | requestTask | close | exit => cases received

theorem receive_complete (received : h.receive msg = .ok (h', pair))
    (done : h.complete = true) : h'.complete = true := by
  rcases receive_cases received with ⟨-, rfl, -⟩ | ⟨-, -, -, -, rfl, -⟩ |
    ⟨-, -, -, -, -, -, rfl, -⟩ | ⟨proof, -, rfl, -⟩ <;> simp_all [complete, setEmbedProof]

end Receive

/-- Once an embed proof is stored, `process` still applies the message it is given, exactly as
`receive` does, and only then answers `Exit`; it never hands out another combine request. -/
theorem process_of_complete (h : GatewayHandler P E) (msg : GatewayMsg P E)
    (done : h.complete = true) :
    h.process msg = (h.receive msg).map fun applied => (applied.1, some .exit) := by
  cases received : h.receive msg with
  | error failure => simp [process, received, bind, Except.bind, Except.map]
  | ok applied =>
    obtain ⟨h', pair⟩ := applied
    simp [process, received, receive_complete received done, bind, Except.bind, Except.map,
      pure, Except.pure]

theorem process_of_complete_emulatorComplete :
    (⟨false, .default, some ()⟩ : GatewayHandler Unit Unit).complete = true ∧
      (⟨false, .default, some ()⟩ : GatewayHandler Unit Unit).process .emulatorComplete =
        ((⟨false, .default, some ()⟩ : GatewayHandler Unit Unit).receive .emulatorComplete).map
          fun applied => (applied.1, some .exit) :=
  ⟨rfl, process_of_complete _ _ rfl⟩

/-- The completion check comes after the message is applied: a complete handler given
`EmulatorComplete` sets its flag before it answers `Exit`. -/
theorem process_changes_complete_handler :
    ¬ ∀ (h : GatewayHandler Unit Unit) (msg : GatewayMsg Unit Unit),
      h.complete = true → h.process msg = .ok (h, some .exit) := by
  intro exitFirst
  have answered := exitFirst ⟨false, .default, some ()⟩ .emulatorComplete rfl
  simp [process, receive, complete, bind, Except.bind, pure, Except.pure] at answered

end GatewayHandler

end ProvingService
