import ProvingService.Pipeline.Invariant

/-!
# No protocol check panics

From the invariant: the gateway can take the message at the head of either of its channels
and every prover any message queued for it. `init_node` is only ever given a fresh index,
`set_proof` only a live one, and every combine request carries two neighbouring proofs, so
none of the `assert!`s and `unwrap`s on the way fires.
-/

set_option autoImplicit false

namespace ProvingService

namespace Pipeline

variable {P E : Type} {s : Pipeline P E}

section Checks

/-- A chunk the emulator has queued lies above every live key. -/
theorem Inv.queued_above (holds : Inv s) {req : RiscvRequest}
    (queued : .riscv (.request req) ∈ s.emulatorChannel) :
    ∀ key ∈ s.handler.proofTree.tree.keys, key < req.chunkIndex := by
  obtain ⟨mid, slots, pending⟩ := tiles_append.mp holds.tiles
  intro key live
  obtain ⟨entry, member, rfl⟩ := List.mem_map.mp live
  have covered := holds.keysInRange entry member
  have below := slots.bounds.2 _ (List.mem_map_of_mem _ member)
  have above := pending.bounds.2 (req.chunkIndex, req.chunkIndex)
    (List.mem_filterMap.mpr ⟨_, queued, rfl⟩)
  simp only [Covers, decide_eq_true_eq] at covered
  omega

/-- A proof on its way to the gateway answers a live slot, which `set_proof` accepts. -/
theorem Inv.response_accepted (holds : Inv s) {msg : GatewayMsg P E} {chunkIndex : Nat}
    {proof : IndexedProof P} (inbox : msg ∈ s.toGateway)
    (answers : msg.work = some (chunkIndex, proof.range)) :
    chunkIndex ∈ s.handler.proofTree.tree.keys ∧
      ∃ tree result, s.handler.proofTree.setProof chunkIndex proof = .ok (tree, result) := by
  obtain ⟨proofs, live, -⟩ := holds.workSlot (chunkIndex, proof.range)
    (List.mem_filterMap.mpr ⟨msg, List.mem_append_right _ inbox, answers⟩)
  obtain ⟨before, after, split⟩ := List.append_of_mem live
  exact ⟨BTreeMap.mem_keys live, ProofTree.setProof_split proof split |>.imp fun _ => .imp
    fun _ accepted => accepted.1⟩

/-- A combine request queued for the provers passes `CombineProver`'s checks. -/
theorem Inv.combine_accepted (holds : Inv s) {combineSize : Nat} (machines : Machines P E)
    (sized : 2 ≤ combineSize) {req : CombineRequest P}
    (queued : .combine (.request req) ∈ s.toWorkers) :
    ∃ first second, req.proofs = [first, second] ∧ first.endChunk + 1 = second.startChunk ∧
      Prover.combine combineSize machines req = .ok ⟨req.chunkIndex,
        ⟨machines.proveTwo first.inner second.inner req.flagComplete, first.startChunk,
          second.endChunk⟩⟩ := by
  rcases holds.toWorkers _ queued with ⟨_, stuck⟩ | ⟨_, first, second, same, pair, meet⟩
  · cases stuck
  · cases same
    refine ⟨first, second, pair, meet.2.1, ?_⟩
    simp [Prover.combine, pair, meet.2.1, show ¬ combineSize < 2 by omega, bind, Except.bind, pure,
      Except.pure]

/-- The head of the provers' channel is never the fast path's `Exit`: its embed proof comes
first, and the gateway leaves its loop on it. -/
theorem Inv.head_ne_exit (holds : Inv s) (running : s.gatewayRunning = true)
    {rest : List (GatewayMsg P E)} (inbox : s.toGateway = .exit :: rest) : False := by
  cases slot : s.fastPathSlot with
  | none => simpa using holds.noFinals slot .exit (by simp [inbox])
  | some key =>
    obtain ⟨before, proof, after, queue, others⟩ := holds.finalsQueued (by simp [slot]) running
    cases before with
    | nil => cases inbox.symm.trans queue
    | cons first before =>
      obtain ⟨rfl, -⟩ := List.cons.inj (inbox.symm.trans queue)
      simpa using others .exit (by simp)

end Checks

/-- Every check the code makes passes on whatever message comes next: each chunk the
emulator has queued is fresh for `init_node`, each proof on its way back answers a slot
`set_proof` finds live, each combine request carries two neighbouring proofs and the merge
covers both, and the gateway and every prover can take the message in front of them. -/
structure ChecksPass (combineSize : Nat) (machines : Machines P E) (s : Pipeline P E) : Prop where
  initFresh : ∀ req, .riscv (.request req) ∈ s.emulatorChannel →
    req.chunkIndex ∉ s.handler.proofTree.tree.keys ∧
      ∃ tree, s.handler.proofTree.initNode req.chunkIndex = .ok tree
  setProofLive : ∀ chunkIndex proof, (.riscv (.response ⟨chunkIndex, proof⟩) ∈ s.toGateway ∨
      .combine (.response ⟨chunkIndex, proof⟩) ∈ s.toGateway) →
    chunkIndex ∈ s.handler.proofTree.tree.keys ∧
      ∃ tree result, s.handler.proofTree.setProof chunkIndex proof = .ok (tree, result)
  combineAdjacent : ∀ req, .combine (.request req) ∈ s.toWorkers →
    ∃ first second, req.proofs = [first, second] ∧ first.endChunk + 1 = second.startChunk ∧
      Prover.combine combineSize machines req = .ok ⟨req.chunkIndex,
        ⟨machines.proveTwo first.inner second.inner req.flagComplete, first.startChunk,
          second.endChunk⟩⟩
  gatewayEmulator : s.gatewayRunning = true → ∀ msg rest, s.emulatorChannel = msg :: rest →
    ∃ next, GatewayLoop.onEmulatorMsg s.handler msg = .ok next
  gatewayWorker : s.gatewayRunning = true → s.emulatorChannel = [] →
    ∀ msg rest, s.toGateway = msg :: rest → ∃ next, GatewayLoop.onWorkerMsg s.handler msg = .ok next
  provers : ∀ msg ∈ s.toWorkers, ∃ next, Prover.handle combineSize machines msg = .ok next

section Run

variable {total combineSize : Nat} {machines : Machines P E}

/-- In a state that keeps the invariant no protocol check panics. -/
theorem Inv.checksPass (holds : Inv s) (machines : Machines P E) (sized : 2 ≤ combineSize) :
    ChecksPass combineSize machines s := by
  have fresh : ∀ req, .riscv (.request req) ∈ s.emulatorChannel →
      req.chunkIndex ∉ s.handler.proofTree.tree.keys ∧
        ∃ tree, s.handler.proofTree.initNode req.chunkIndex = .ok tree := fun req queued =>
    have above := holds.queued_above queued
    ⟨fun live => Nat.lt_irrefl _ (above _ live),
      (ProofTree.initNode_last above).imp fun _ appended => appended.1⟩
  refine ⟨fresh, fun chunkIndex proof inbox => ?_, fun req => holds.combine_accepted machines sized,
    fun running msg rest channel => ?_, fun running channel msg rest inbox => ?_,
    fun msg queued => ?_⟩
  · rcases inbox with inbox | inbox <;> exact holds.response_accepted inbox rfl
  · have waiting := holds.running running
    rcases holds.emulatorChannel msg (by simp [channel]) with rfl | ⟨req, rfl⟩
    · simp [GatewayLoop.onEmulatorMsg, GatewayHandler.process, GatewayHandler.receive,
        GatewayHandler.complete, waiting, bind, Except.bind, pure, Except.pure]
    · obtain ⟨tree, init⟩ := (fresh req (by simp [channel])).2
      simp [GatewayLoop.onEmulatorMsg, GatewayHandler.processRiscvReq, init, bind, Except.bind,
        pure, Except.pure]
  · have waiting := holds.running running
    rcases holds.toGateway msg (by simp [inbox]) with rfl | ⟨res, rfl⟩ | ⟨res, rfl⟩ | final
    · exact ⟨_, rfl⟩
    · obtain ⟨chunkIndex, proof⟩ := res
      have head : GatewayMsg.riscv (.response ⟨chunkIndex, proof⟩) ∈ s.toGateway := by simp [inbox]
      obtain ⟨-, tree, result, set⟩ := holds.response_accepted head rfl
      obtain ⟨-, -, -, -, -, -, -, -, pairs⟩ := holds.setProof_outcome channel inbox rfl set
      exact GatewayLoop.onWorkerMsg_response_ok waiting (.inl rfl) set fun proofs handed => by
        obtain ⟨_, _, rfl, -⟩ := pairs proofs handed
        rfl
    · obtain ⟨chunkIndex, proof⟩ := res
      have head : GatewayMsg.combine (.response ⟨chunkIndex, proof⟩) ∈ s.toGateway := by simp [inbox]
      obtain ⟨-, tree, result, set⟩ := holds.response_accepted head rfl
      obtain ⟨-, -, -, -, -, -, -, -, pairs⟩ := holds.setProof_outcome channel inbox rfl set
      exact GatewayLoop.onWorkerMsg_response_ok waiting (.inr rfl) set fun proofs handed => by
        obtain ⟨_, _, rfl, -⟩ := pairs proofs handed
        rfl
    · cases msg with
      | embed proof =>
        simp [GatewayLoop.onWorkerMsg, GatewayHandler.process, GatewayHandler.receive,
          GatewayHandler.complete, GatewayHandler.setEmbedProof, bind, Except.bind, pure,
          Except.pure]
      | exit => exact (holds.head_ne_exit running inbox).elim
      | _ => cases final
  · rcases holds.toWorkers msg queued with ⟨req, rfl⟩ | ⟨req, -, -, rfl, -, -⟩
    · exact ⟨_, rfl⟩
    · obtain ⟨first, second, -, -, combined⟩ := holds.combine_accepted machines sized queued
      simp only [Prover.handle, combined, bind, Except.bind]
      split_ifs <;> exact ⟨_, rfl⟩

/-- In every reachable state no protocol check panics. -/
theorem no_protocol_panic (sized : 2 ≤ combineSize)
    (reachable : Reachable total combineSize machines s) : ChecksPass combineSize machines s :=
  (reachable_inv reachable).checksPass machines sized

/-- Four chunks: three emitted, read and proved, the proofs of chunks 0 and 1 merged into a
combine request, then chunk 3 emitted. -/
def inFlightTurns : List Turn :=
  [.emulator, .emulator, .emulator, .gatewayEmulator, .gatewayEmulator, .gatewayEmulator,
    .prover 0, .prover 0, .prover 0, .gatewayWorker, .gatewayWorker, .gatewayWorker, .emulator]

/-- Every check at once: chunk 3 waits for the gateway, chunk 2's proof for `set_proof`, and the
pair of chunks 0 and 1 for `CombineProver::process`. -/
theorem no_protocol_panic_in_flight :
    ∃ s, runTurns 4 2 Machines.ranges init inFlightTurns = some s ∧
      s.emulatorChannel = [.riscv (.request ⟨3⟩)] ∧
      s.toGateway = [.requestTask, .riscv (.response ⟨2, ⟨(2, 2), 2, 2⟩⟩), .requestTask] ∧
      s.toWorkers = [.combine (.request ⟨false, 1, [⟨(0, 0), 0, 0⟩, ⟨(1, 1), 1, 1⟩]⟩)] ∧
      ChecksPass 2 Machines.ranges s := by
  obtain ⟨s, run, channel, inbox, queued⟩ : ∃ s, runTurns 4 2 Machines.ranges init inFlightTurns = some s ∧
      s.emulatorChannel = [.riscv (.request ⟨3⟩)] ∧
      s.toGateway = [.requestTask, .riscv (.response ⟨2, ⟨(2, 2), 2, 2⟩⟩), .requestTask] ∧
      s.toWorkers = [.combine (.request ⟨false, 1, [⟨(0, 0), 0, 0⟩, ⟨(1, 1), 1, 1⟩]⟩)] :=
    ⟨_, rfl, rfl, rfl, rfl⟩
  exact ⟨s, run, channel, inbox, queued,
    no_protocol_panic le_rfl (runTurns_reachable 4 2 Machines.ranges .init run)⟩

end Run

end Pipeline

end ProvingService
