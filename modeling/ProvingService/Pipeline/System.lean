import ProvingService.Gateway.Handler
import ProvingService.Onchain.ProveEmbed

/-!
# The proving pipeline

One run of `proving::prove_task`: the emulator emitting chunk requests, the gateway loop of
`gateway::run`, and a pool of provers each running the loop of `ProverRunner::run`, joined by
channels. A step is one thread handling one message; threads interleave in any order. The
stage computations are black boxes, so the model is parametric in them. The gateway's `Exit` arm
is recorded with the embed proof it ran on; what `prove_task` then receives, the on-chain bytes
or a sender dropped by a panic of `prove_embed_onchain`, is `Pipeline.signal`.
-/

set_option autoImplicit false

namespace ProvingService

/-- The stage computations a prover calls. -/
structure Machines (P E : Type) where
  /-- Proving a chunk's record and converting the proof (`prove_record`, `prove_with_index`). -/
  convert : RiscvRequest → P
  /-- `CombineMachine::prove_two`. -/
  proveTwo : P → P → Bool → P
  compress : P → P
  embed : P → E
  /-- `EmbedProver::verify(..).is_ok()` against the program's verifying key. -/
  verify : E → Bool

/-- Stage computations whose proofs record the chunks they cover, and whose embed proofs
verify: on them a run shows which chunks the final proof covers. -/
def Machines.ranges : Machines (Nat × Nat) (Nat × Nat) where
  convert req := (req.chunkIndex, req.chunkIndex)
  proveTwo first second _ := (first.1, second.2)
  compress := id
  embed := id
  verify _ := true

/-- The same stages with an embed verification that rejects every proof. -/
def Machines.rejecting : Machines (Nat × Nat) (Nat × Nat) :=
  { Machines.ranges with verify := fun _ => false }

/-- Panic text of the adjacency `assert_eq!` of `CombineProver::process`. -/
def notAdjacent : String := "proofs are not adjacent: cannot combine"

/-- Panic text of the size `assert!` of `CombineProver::process`. -/
def tooManyProofs : String := "assertion failed: proofs.len() <= COMBINE_SIZE"

/-- Panic text of indexing a vector past its end. -/
def indexOutOfBounds : String := "index out of bounds"

/-- Panic text of the `assert!` in the gateway loop's chunk branch. -/
def taskFromChunk : String := "assertion failed: no_task.is_none()"

namespace Prover

variable {P E : Type}

/-- `RiscvConvertHandler::process`: the chunk's proof covers the chunk itself. -/
def riscvConvert (machines : Machines P E) (req : RiscvRequest) : RiscvResponse P :=
  ⟨req.chunkIndex, ⟨machines.convert req, req.chunkIndex, req.chunkIndex⟩⟩

/-- `CombineHandler::process`; `combineSize` is `COMBINE_SIZE` of the VM crate. -/
def combine (combineSize : Nat) (machines : Machines P E) (req : CombineRequest P) :
    Except String (CombineResponse P) := do
  if combineSize < req.proofs.length then throw tooManyProofs
  match req.proofs with
  | first :: second :: _ =>
    if first.endChunk + 1 ≠ second.startChunk then throw notAdjacent
    pure ⟨req.chunkIndex,
      ⟨machines.proveTwo first.inner second.inner req.flagComplete, first.startChunk,
        second.endChunk⟩⟩
  | _ => throw indexOutOfBounds

/-- `CompressHandler::process`, which labels its proof with the slot's own index. -/
def compress (machines : Machines P E) (chunkIndex : Nat) (proof : IndexedProof P) :
    IndexedProof P :=
  ⟨machines.compress proof.inner, chunkIndex, chunkIndex⟩

/-- `EmbedHandler::process`. -/
def embed (machines : Machines P E) (chunkIndex : Nat) (proof : IndexedProof P) :
    IndexedProof E :=
  ⟨machines.embed proof.inner, chunkIndex, chunkIndex⟩

/-- One pass of the prover loop: the messages sent, in order, and whether the loop ends. A
combine request flagged complete is compressed and embedded on the spot; a verified embed
proof is sent with `Exit` and ends the loop, a rejected one falls back to the combine
response. -/
def handle (combineSize : Nat) (machines : Machines P E) (msg : GatewayMsg P E) :
    Except String (List (GatewayMsg P E) × Bool) :=
  match msg with
  | .riscv (.request req) =>
    pure ([.riscv (.response (riscvConvert machines req)), .requestTask], false)
  | .combine (.request req) => do
    let res ← combine combineSize machines req
    if req.flagComplete then
      let compressProof := compress machines res.chunkIndex res.proof
      let embedProof := embed machines res.chunkIndex compressProof
      if machines.verify embedProof.inner then
        return ([.embed embedProof.inner, .exit], true)
    pure ([.combine (.response res), .requestTask], false)
  | .exit => pure ([], true)
  | _ => throw unsupported

section Inversion

variable {combineSize : Nat} {machines : Machines P E}

/-- A combine the prover finishes had two adjacent proofs, and covers both. -/
theorem combine_ok {req : CombineRequest P} {res : CombineResponse P}
    (combined : combine combineSize machines req = .ok res) :
    ∃ first second rest, req.proofs = first :: second :: rest ∧
      first.endChunk + 1 = second.startChunk ∧ res.chunkIndex = req.chunkIndex ∧
      res.proof.range = (first.startChunk, second.endChunk) := by
  obtain ⟨flag, chunkIndex, proofs⟩ := req
  simp only [combine] at combined
  split_ifs at combined with large
  · cases combined
  · match proofs, combined with
    | first :: second :: rest, combined =>
      simp only at combined
      split_ifs at combined with apart
      · cases combined
      · cases combined
        exact ⟨first, second, rest, rfl, by omega, rfl, rfl⟩
    | [], combined => cases combined
    | [_], combined => cases combined

/-- Everything one pass of the prover loop can do. -/
theorem handle_cases {msg : GatewayMsg P E} {sent : List (GatewayMsg P E)} {exits : Bool}
    (handled : handle combineSize machines msg = .ok (sent, exits)) :
    (∃ req, msg = .riscv (.request req) ∧
      sent = [.riscv (.response (riscvConvert machines req)), .requestTask] ∧ exits = false) ∨
    (∃ req res, msg = .combine (.request req) ∧ combine combineSize machines req = .ok res ∧
      ((sent = [.combine (.response res), .requestTask] ∧ exits = false) ∨
        (req.flagComplete = true ∧ ∃ proof, sent = [.embed proof, .exit] ∧ exits = true))) ∨
    (msg = .exit ∧ sent = [] ∧ exits = true) := by
  match msg, handled with
  | .riscv (.request req), handled =>
    cases handled
    exact .inl ⟨req, rfl, rfl, rfl⟩
  | .combine (.request req), handled =>
    cases combined : combine combineSize machines req with
    | error failure => simp [handle, combined, bind, Except.bind] at handled
    | ok res =>
      refine .inr (.inl ⟨req, res, rfl, combined, ?_⟩)
      simp only [handle, combined, bind, Except.bind] at handled
      split_ifs at handled with flagged verified
      · cases handled
        exact .inr ⟨flagged, _, rfl, rfl⟩
      · cases handled
        exact .inl ⟨rfl, rfl⟩
      · cases handled
        exact .inl ⟨rfl, rfl⟩
  | .exit, handled =>
    cases handled
    exact .inr (.inr ⟨rfl, rfl, rfl⟩)
  | .riscv (.response _), handled => cases handled
  | .combine (.response _), handled => cases handled
  | .emulatorComplete, handled => cases handled
  | .requestTask, handled => cases handled
  | .embed _, handled => cases handled
  | .close, handled => cases handled

/-- With an embed verification that rejects every proof, only `Exit` ends the prover loop. -/
theorem handle_exits_of_rejects (rejects : ∀ proof, machines.verify proof = false)
    {msg : GatewayMsg P E} {sent : List (GatewayMsg P E)}
    (handled : handle combineSize machines msg = .ok (sent, true)) : msg = .exit := by
  match msg, handled with
  | .riscv (.request _), handled => cases handled
  | .combine (.request req), handled =>
    cases combined : combine combineSize machines req with
    | error failure => simp [handle, combined, bind, Except.bind] at handled
    | ok res =>
      simp only [handle, combined, bind, Except.bind, rejects, Bool.false_eq_true, if_false,
        ite_self] at handled
      cases handled
  | .exit, _ => rfl
  | .riscv (.response _), handled | .combine (.response _), handled
  | .emulatorComplete, handled | .requestTask, handled | .embed _, handled
  | .close, handled => cases handled

end Inversion

end Prover

/-- What the gateway loop does after the handler has taken a message. -/
inductive GatewayAction (P E : Type) where
  /-- Nothing to send. -/
  | idle
  /-- `grpc_endpoint.send(msg)`. -/
  | send (msg : GatewayMsg P E)
  /-- The `Exit` arm on the stored embed proof: `prove_embed_onchain`, the completion signal,
  and out of the loop. -/
  | finish (embedProof : Option E)
  /-- Leave the loop without a signal. -/
  | stop

namespace GatewayLoop

variable {P E : Type}

/-- The `emulator_receiver` arm of `gateway::run`. -/
def onEmulatorMsg (h : GatewayHandler P E) (msg : GatewayMsg P E) :
    Except String (GatewayHandler P E × GatewayAction P E) :=
  match msg with
  | .riscv (.request _) => do
    let (h, noTask) ← h.processRiscvReq msg
    if noTask.isSome then throw taskFromChunk
    pure (h, .send msg)
  | .emulatorComplete => do
    let (h, out) ← h.process msg
    match out with
    | some .exit => pure (h, .stop)
    | _ => pure (h, .idle)
  | _ => throw unsupported

/-- The `grpc_endpoint` arm of `gateway::run`. -/
def onWorkerMsg (h : GatewayHandler P E) (msg : GatewayMsg P E) :
    Except String (GatewayHandler P E × GatewayAction P E) :=
  match msg with
  | .riscv (.response _) | .combine (.response _) | .embed _ | .exit => do
    let (h, out) ← h.process msg
    match out with
    | some .exit => pure (h, .finish h.embedProof)
    | some next => pure (h, .send next)
    | none => pure (h, .idle)
  | .requestTask => pure (h, .idle)
  | _ => throw unsupported

section Inversion

open GatewayHandler

variable {h h' : GatewayHandler P E} {msg : GatewayMsg P E} {act : GatewayAction P E}

/-- What the emulator arm does while no embed proof is stored. -/
theorem onEmulatorMsg_cases (waiting : h.embedProof = none)
    (handled : onEmulatorMsg h msg = .ok (h', act)) :
    (∃ req tree, msg = .riscv (.request req) ∧ h.proofTree.initNode req.chunkIndex = .ok tree ∧
      h' = { h with proofTree := tree } ∧ act = .send msg) ∨
    (msg = .emulatorComplete ∧ h' = { h with emulatorComplete := true } ∧ act = .idle) := by
  match msg, handled with
  | .riscv (.request req), handled =>
    cases init : h.proofTree.initNode req.chunkIndex with
    | error failure =>
      simp [onEmulatorMsg, processRiscvReq, init, bind, Except.bind] at handled
    | ok tree =>
      simp only [onEmulatorMsg, processRiscvReq, init, bind, Except.bind, pure, Except.pure,
        Option.isSome_none] at handled
      cases handled
      exact .inl ⟨req, tree, rfl, init, rfl, rfl⟩
  | .emulatorComplete, handled =>
    simp only [onEmulatorMsg, process, receive, complete, waiting, bind, Except.bind, pure,
      Except.pure] at handled
    cases handled
    exact .inr ⟨rfl, by simp [waiting], rfl⟩
  | .riscv (.response _), handled | .combine _, handled | .requestTask, handled
  | .embed _, handled | .close, handled | .exit, handled => cases handled

/-- What the provers' arm does while no embed proof is stored: a response goes to
`set_proof`, and a pair it hands out is sent on, flagged complete when one slot is left. -/
theorem onWorkerMsg_cases (waiting : h.embedProof = none)
    (handled : onWorkerMsg h msg = .ok (h', act)) :
    (msg = .requestTask ∧ h' = h ∧ act = .idle) ∨
    (∃ proof, msg = .embed proof ∧ h' = h.setEmbedProof proof ∧ act = .finish (some proof)) ∨
    (∃ chunkIndex proof tree,
      (msg = .riscv (.response ⟨chunkIndex, proof⟩) ∨
        msg = .combine (.response ⟨chunkIndex, proof⟩)) ∧
      h' = { h with proofTree := tree } ∧
      ((h.proofTree.setProof chunkIndex proof = .ok (tree, none) ∧ act = .idle) ∨
        ∃ first second, h.proofTree.setProof chunkIndex proof = .ok (tree, some [first, second]) ∧
          act = .send (.combine (.request ⟨tree.len == 1, chunkIndex, [first, second]⟩)))) := by
  match msg, handled with
  | .requestTask, handled =>
    cases handled
    exact .inl ⟨rfl, rfl, rfl⟩
  | .embed proof, handled =>
    simp only [onWorkerMsg, process, receive, complete, setEmbedProof, bind, Except.bind, pure,
      Except.pure, Option.isSome_some, if_true] at handled
    cases handled
    exact .inr (.inl ⟨proof, rfl, rfl, rfl⟩)
  | .riscv (.response ⟨chunkIndex, proof⟩), handled
  | .combine (.response ⟨chunkIndex, proof⟩), handled =>
    cases set : h.proofTree.setProof chunkIndex proof with
    | error failure => simp [onWorkerMsg, process, receive, set, bind, Except.bind] at handled
    | ok applied =>
      obtain ⟨tree, result⟩ := applied
      simp only [onWorkerMsg, process, receive, set, complete, waiting, bind, Except.bind, pure,
        Except.pure, Option.isSome_none, Bool.false_eq_true, if_false] at handled
      refine .inr (.inr ⟨chunkIndex, proof, tree, by simp, ?_⟩)
      match result, set, handled with
      | none, set, handled =>
        cases handled
        exact ⟨by simp [waiting], .inl ⟨set, rfl⟩⟩
      | some [first, second], set, handled =>
        cases handled
        exact ⟨by simp [waiting], .inr ⟨first, second, set, rfl⟩⟩
      | some [], _, handled | some [_], _, handled | some (_ :: _ :: _ :: _), _, handled =>
        simp [throw, throwThe, MonadExceptOf.throw] at handled
  | .exit, handled => cases handled
  | .riscv (.request _), handled | .combine (.request _), handled | .emulatorComplete, handled
  | .close, handled => cases handled

/-- The provers' arm takes a response that `set_proof` accepts, when every pair it hands out
is a pair. -/
theorem onWorkerMsg_response_ok (waiting : h.embedProof = none) {chunkIndex : Nat}
    {proof : IndexedProof P} {tree : ProofTree P} {result : Option (List (IndexedProof P))}
    (isResponse : msg = .riscv (.response ⟨chunkIndex, proof⟩) ∨
      msg = .combine (.response ⟨chunkIndex, proof⟩))
    (set : h.proofTree.setProof chunkIndex proof = .ok (tree, result))
    (paired : ∀ proofs ∈ result, proofs.length = 2) :
    ∃ next, onWorkerMsg h msg = .ok next := by
  rcases isResponse with rfl | rfl <;> cases result with
  | none =>
    simp [onWorkerMsg, process, receive, set, complete, waiting, bind, Except.bind, pure,
      Except.pure]
  | some proofs =>
    simp [onWorkerMsg, process, receive, set, complete, waiting, bind, Except.bind, pure,
      Except.pure, paired proofs rfl]

end Inversion

end GatewayLoop

/-- The threads and channels of one proving run. `fastPathSlot` is ghost state: the slot of
the combine request a prover finished on the fast path. -/
structure Pipeline (P E : Type) where
  /-- The emulator's `chunk_index`: chunks `0 .. emitted - 1` have been sent. -/
  emitted : Nat
  /-- `EmulatorComplete` has been sent. -/
  emulatorDone : Bool
  /-- Emulator to gateway, oldest first. -/
  emulatorChannel : List (GatewayMsg P E)
  handler : GatewayHandler P E
  /-- The gateway has not left its loop. -/
  gatewayRunning : Bool
  /-- Gateway to provers; any idle prover takes any message. -/
  toWorkers : List (GatewayMsg P E)
  /-- Provers to gateway, oldest first. -/
  toGateway : List (GatewayMsg P E)
  /-- The embed proof the gateway's `Exit` arm ran on, once it has. -/
  completion : Option (Option E)
  fastPathSlot : Option Nat

namespace Pipeline

variable {P E : Type}

def init : Pipeline P E := ⟨0, false, [], .new, true, [], [], none, none⟩

/-- The pipeline after the gateway handled a message. -/
def afterGateway (s : Pipeline P E) (h : GatewayHandler P E) :
    GatewayAction P E → Pipeline P E
  | .idle => { s with handler := h }
  | .send msg => { s with handler := h, toWorkers := s.toWorkers ++ [msg] }
  | .finish proof => { s with handler := h, gatewayRunning := false, completion := some proof }
  | .stop => { s with handler := h, gatewayRunning := false }

@[simp] theorem afterGateway_emitted (s : Pipeline P E) (h : GatewayHandler P E)
    (act : GatewayAction P E) : (s.afterGateway h act).emitted = s.emitted := by
  cases act <;> rfl

@[simp] theorem afterGateway_emulatorDone (s : Pipeline P E) (h : GatewayHandler P E)
    (act : GatewayAction P E) : (s.afterGateway h act).emulatorDone = s.emulatorDone := by
  cases act <;> rfl

/-- What `prove_task`'s `completion_receiver` gets, once the gateway has taken its `Exit` arm:
the bytes sent, or the panic of `prove_embed_onchain` that dropped the sender. -/
def signal (gnark : Onchain.Gnark E) (s : Pipeline P E) : Option (Except Onchain.Panic (List UInt8)) :=
  s.completion.map (Onchain.exitArm gnark)

/-- The slot a combine request belongs to, kept as ghost state when a prover ends on it. -/
def fastPathOrigin : GatewayMsg P E → Option Nat
  | .combine (.request req) => some req.chunkIndex
  | _ => none

section Steps

variable (total combineSize : Nat) (machines : Machines P E)

/-- One atomic step of one thread, for an emulation of `total` chunks. The gateway reads the
provers' channel only when the emulator's is empty (`select_biased!`). -/
inductive Step : Pipeline P E → Pipeline P E → Prop
  | emit {s : Pipeline P E} : s.emulatorDone = false → s.emitted < total →
      Step s ({ s with
        emitted := s.emitted + 1
        emulatorChannel := s.emulatorChannel ++ [.riscv (.request ⟨s.emitted⟩)] })
  | emulatorComplete {s : Pipeline P E} : s.emulatorDone = false → s.emitted = total →
      Step s ({ s with
        emulatorDone := true
        emulatorChannel := s.emulatorChannel ++ [.emulatorComplete] })
  | gatewayEmulator {s : Pipeline P E} {msg : GatewayMsg P E} {rest : List (GatewayMsg P E)}
      {h : GatewayHandler P E} {act : GatewayAction P E} :
      s.gatewayRunning = true → s.emulatorChannel = msg :: rest →
      GatewayLoop.onEmulatorMsg s.handler msg = .ok (h, act) →
      Step s ({ s with emulatorChannel := rest }.afterGateway h act)
  | gatewayWorker {s : Pipeline P E} {msg : GatewayMsg P E} {rest : List (GatewayMsg P E)}
      {h : GatewayHandler P E} {act : GatewayAction P E} :
      s.gatewayRunning = true → s.emulatorChannel = [] → s.toGateway = msg :: rest →
      GatewayLoop.onWorkerMsg s.handler msg = .ok (h, act) →
      Step s ({ s with toGateway := rest }.afterGateway h act)
  | prover {s : Pipeline P E} {before after : List (GatewayMsg P E)} {msg : GatewayMsg P E}
      {sent : List (GatewayMsg P E)} {exits : Bool} :
      s.toWorkers = before ++ msg :: after →
      Prover.handle combineSize machines msg = .ok (sent, exits) →
      Step s ({ s with
        toWorkers := before ++ after
        toGateway := s.toGateway ++ sent
        fastPathSlot := if exits then fastPathOrigin msg else s.fastPathSlot })

/-- The states a run can reach. -/
inductive Reachable : Pipeline P E → Prop
  | init : Reachable init
  | step {s s' : Pipeline P E} : Reachable s → Step total combineSize machines s s' → Reachable s'

/-- Whose turn it is; a prover's turn names the message it takes. -/
inductive Turn where
  | emulator
  | gatewayEmulator
  | gatewayWorker
  | prover (index : Nat)

/-- The step a turn takes, if that thread can move: an executable reading of `Step`. -/
def turn (s : Pipeline P E) : Turn → Option (Pipeline P E)
  | .emulator =>
    if s.emulatorDone then none
    else if s.emitted < total then
      some { s with
        emitted := s.emitted + 1
        emulatorChannel := s.emulatorChannel ++ [.riscv (.request ⟨s.emitted⟩)] }
    else if s.emitted = total then
      some { s with
        emulatorDone := true
        emulatorChannel := s.emulatorChannel ++ [.emulatorComplete] }
    else none
  | .gatewayEmulator =>
    match s.gatewayRunning, s.emulatorChannel with
    | true, msg :: rest =>
      match GatewayLoop.onEmulatorMsg s.handler msg with
      | .ok (h, act) => some ({ s with emulatorChannel := rest }.afterGateway h act)
      | .error _ => none
    | _, _ => none
  | .gatewayWorker =>
    match s.gatewayRunning, s.emulatorChannel, s.toGateway with
    | true, [], msg :: rest =>
      match GatewayLoop.onWorkerMsg s.handler msg with
      | .ok (h, act) => some ({ s with toGateway := rest }.afterGateway h act)
      | .error _ => none
    | _, _, _ => none
  | .prover index =>
    match s.toWorkers.drop index with
    | msg :: after =>
      match Prover.handle combineSize machines msg with
      | .ok (sent, exits) =>
        some { s with
          toWorkers := s.toWorkers.take index ++ after
          toGateway := s.toGateway ++ sent
          fastPathSlot := if exits then fastPathOrigin msg else s.fastPathSlot }
      | .error _ => none
    | [] => none

/-- Runs the turns in order; `none` once a thread named cannot move. -/
def runTurns : Pipeline P E → List Turn → Option (Pipeline P E)
  | s, [] => some s
  | s, next :: turns => (turn total combineSize machines s next).bind fun s' => runTurns s' turns

theorem turn_step {s s' : Pipeline P E} {next : Turn}
    (moved : turn total combineSize machines s next = some s') :
    Step total combineSize machines s s' := by
  cases next with
  | emulator =>
    simp only [turn] at moved
    split_ifs at moved with done fewer same <;> cases moved
    · exact .emit (by simpa using done) fewer
    · exact .emulatorComplete (by simpa using done) same
  | gatewayEmulator =>
    simp only [turn] at moved
    split at moved
    · rename_i msg rest running channel
      split at moved
      · rename_i h act handled
        cases moved
        exact .gatewayEmulator running channel handled
      · cases moved
    · cases moved
  | gatewayWorker =>
    simp only [turn] at moved
    split at moved
    · rename_i msg rest running channel inbox
      split at moved
      · rename_i h act handled
        cases moved
        exact .gatewayWorker running channel inbox handled
      · cases moved
    · cases moved
  | prover index =>
    simp only [turn] at moved
    split at moved
    · rename_i msg after taken
      split at moved
      · rename_i sent exits handled
        cases moved
        have split : s.toWorkers = s.toWorkers.take index ++ msg :: after := by
          rw [← taken, List.take_append_drop]
        exact .prover split handled
      · cases moved
    · cases moved

theorem runTurns_reachable : ∀ {s s' : Pipeline P E} {turns : List Turn},
    Reachable total combineSize machines s →
      runTurns total combineSize machines s turns = some s' →
        Reachable total combineSize machines s'
  | s, s', [], reachable, ran => by
    cases ran
    exact reachable
  | s, s', next :: turns, reachable, ran => by
    obtain ⟨s'', moved, rest⟩ := Option.bind_eq_some.mp ran
    exact runTurns_reachable (.step reachable (turn_step total combineSize machines moved)) rest

end Steps

end Pipeline

end ProvingService
