import ProvingService.Pipeline.Safety
import ProvingService.Pipeline.Partition

/-!
# When the run completes

The gateway flags a merge complete when the tree is down to one slot, that is when the pair
covers every chunk emitted so far, whether or not the emulator has finished. A run in which no
thread can move has fired the completion signal as soon as it has two chunks; with one chunk it
stops with nothing in flight and no embed proof.
-/

set_option autoImplicit false

namespace ProvingService

namespace Pipeline

variable {P E : Type} {s s' : Pipeline P E} {total combineSize : Nat} {machines : Machines P E}

/-- The emulator sends at most `total` chunks, and all of them before `EmulatorComplete`. -/
theorem emitted_le (reachable : Reachable total combineSize machines s) :
    s.emitted ≤ total ∧ (s.emulatorDone = true → s.emitted = total) := by
  induction reachable with
  | init => simp [init]
  | step _ step bounded =>
    cases step with
    | emit waiting fewer => exact ⟨fewer, fun done => by simp_all⟩
    | emulatorComplete waiting same => exact ⟨same.le, fun _ => same⟩
    | gatewayEmulator | gatewayWorker => simpa using bounded
    | prover => exact bounded

/-- No thread can move once the emulator is done, the provers have nothing queued and the
gateway has left its loop or has nothing to read. -/
theorem not_step (done : s.emulatorDone = true) (idle : s.toWorkers = [])
    (gateway : s.gatewayRunning = false ∨ s.emulatorChannel = [] ∧ s.toGateway = []) :
    ¬ Step total combineSize machines s s' := by
  intro step
  cases step with
  | emit waiting => simp_all
  | emulatorComplete waiting => simp_all
  | gatewayEmulator running channel => rcases gateway with stop | ⟨empty, -⟩ <;> simp_all
  | gatewayWorker running channel inbox => rcases gateway with stop | ⟨-, empty⟩ <;> simp_all
  | prover taken => simp_all

/-- The gateway flags a merge complete exactly when its two proofs cover every chunk emitted
so far: from chunk 0 to the last chunk the emulator has sent, wherever the emulator is. -/
theorem flag_iff_covers_emitted (reachable : Reachable total combineSize machines s)
    (running : s.gatewayRunning = true) (channel : s.emulatorChannel = [])
    {msg : GatewayMsg P E} {rest : List (GatewayMsg P E)} {h : GatewayHandler P E}
    {req : CombineRequest P} (inbox : s.toGateway = msg :: rest)
    (handled : GatewayLoop.onWorkerMsg s.handler msg = .ok (h, .send (.combine (.request req)))) :
    ∃ first second, req.proofs = [first, second] ∧
      (req.flagComplete = true ↔ first.startChunk = 0 ∧ second.endChunk + 1 = s.emitted) := by
  have holds := reachable_inv reachable
  rcases GatewayLoop.onWorkerMsg_cases (holds.running running) handled with
    ⟨_, _, stuck⟩ | ⟨_, _, _, stuck⟩ | ⟨chunkIndex, proof, tree, isResponse, -, acted⟩
  · cases stuck
  · cases stuck
  have answers : msg.work = some (chunkIndex, proof.range) := by
    rcases isResponse with rfl | rfl <;> rfl
  rcases acted with ⟨-, stuck⟩ | ⟨first, second, set, sent⟩
  · cases stuck
  cases sent
  obtain ⟨_, _, _, -, outcome, tiles, -⟩ := holds.setProof_outcome channel inbox answers set
  have live : pairRange chunkIndex [first, second] ∈ slotRanges tree.tree.entries := by
    have slot := outcome.mem_index
    simp only [Option.elim] at slot
    exact List.mem_map_of_mem (fun entry : Nat × ProofNode P => entry.2.range entry.1) slot
  refine ⟨first, second, rfl, ?_⟩
  simpa [ProofTree.len, BTreeMap.len, slotRanges] using Tiles.length_eq_one_iff tiles live

/-! ## A run that cannot move has completed -/

/-- A range spanning every chunk emitted so far. -/
def Spans (s : Pipeline P E) (range : Nat × Nat) : Prop := range.1 = 0 ∧ range.2 + 1 = s.emitted

/-- Nothing spans every emitted chunk but a single chunk or a merge flagged complete: with
embed proofs that verify, a flagged merge ends on the fast path and never comes back as a
proof to store. -/
structure Settles (s : Pipeline P E) : Prop where
  proved : ∀ key proof, (key, ProofNode.proved proof) ∈ s.entries → Spans s proof.range →
    proof.startChunk = proof.endChunk
  work : ∀ msg ∈ s.toWorkers ++ s.toGateway, ∀ item, msg.work = some item → Spans s item.2 →
    item.2.1 = item.2.2 ∨ ∃ req, msg = .combine (.request req) ∧ req.flagComplete = true

section Settle

/-- Every live slot lies below the chunks emitted so far. -/
theorem Inv.range_lt (holds : Inv s) {key : Nat} {node : ProofNode P}
    (live : (key, node) ∈ s.entries) : (node.range key).2 < s.emitted :=
  (holds.tiles.bounds.2 _ (List.mem_append_left _
    (List.mem_map_of_mem (fun entry : Nat × ProofNode P => entry.2.range entry.1) live))).2.2

theorem Inv.work_lt (holds : Inv s) {item : Nat × (Nat × Nat)} (outstanding : item ∈ s.work) :
    item.2.2 < s.emitted := by
  obtain ⟨proofs, live, range⟩ := holds.workSlot item outstanding
  simpa [range] using holds.range_lt live

/-- The gateway applies a proof that is not a merge flagged complete. -/
theorem Settles.applied (holds : Inv s) (settles : Settles s) (channel : s.emulatorChannel = [])
    {msg : GatewayMsg P E} {rest sent : List (GatewayMsg P E)} {chunkIndex : Nat}
    {proof : IndexedProof P} {tree : ProofTree P} {result : Option (List (IndexedProof P))}
    (inbox : s.toGateway = msg :: rest) (answers : msg.work = some (chunkIndex, proof.range))
    (response : ∀ req, msg ≠ .combine (.request req))
    (set : s.handler.proofTree.setProof chunkIndex proof = .ok (tree, result))
    (handedOut : result = none ∧ sent = [] ∨ ∃ first second, result = some [first, second] ∧
      sent = [.combine (.request ⟨tree.len == 1, chunkIndex, [first, second]⟩)]) :
    Settles { s with
      handler := { s.handler with proofTree := tree }
      toWorkers := s.toWorkers ++ sent
      toGateway := rest } := by
  obtain ⟨before, proofs, after, split, outcome, tiles, -⟩ :=
    holds.setProof_outcome channel inbox answers set
  have single : Spans s proof.range → proof.startChunk = proof.endChunk := fun spans => by
    rcases settles.work msg (by simp [inbox]) _ answers spans with same | ⟨req, flagged, -⟩
    · exact same
    · exact absurd flagged (response req)
  constructor
  · intro key stored live spans
    by_cases same : key = chunkIndex
    · subst same
      have index := BTreeMap.mem_unique outcome.mem_index live
      rcases handedOut with ⟨rfl, -⟩ | ⟨first, second, rfl, -⟩ <;> simp at index
      subst index
      exact single spans
    · have old : (key, ProofNode.proved stored) ∈ before ++ (chunkIndex, .inProgress proofs) :: after :=
        outcome.mem_of_ne live same
      exact settles.proved key stored (split ▸ old) spans
  · intro msg' member item answers' spans
    simp only [List.append_assoc, List.mem_append] at member
    rcases member with old | new | old
    · exact settles.work msg' (List.mem_append_left _ old) item answers' spans
    · rcases handedOut with ⟨-, rfl⟩ | ⟨first, second, handed, rfl⟩
      · cases new
      obtain rfl := List.mem_singleton.mp new
      obtain rfl := Option.some.inj answers'.symm
      have live : pairRange chunkIndex [first, second] ∈ slotRanges tree.tree.entries := by
        have slot := outcome.mem_index
        simp only [handed, Option.elim] at slot
        exact List.mem_map_of_mem (fun entry : Nat × ProofNode P => entry.2.range entry.1) slot
      have one := (Tiles.length_eq_one_iff (by simpa using tiles) live).mpr spans
      exact .inr ⟨_, rfl, by simpa [ProofTree.len, BTreeMap.len, slotRanges] using one⟩
    · exact settles.work msg' (List.mem_append_right _ (by simp [inbox, old])) item answers' spans

/-- A prover's answer keeps the invariant when every piece of work it sends that spans the
emitted chunks is a single chunk. -/
theorem Settles.replied (settles : Settles s) {before after sent : List (GatewayMsg P E)}
    {msg : GatewayMsg P E} {slot : Option Nat} (taken : s.toWorkers = before ++ msg :: after)
    (single : ∀ m ∈ sent, ∀ item, m.work = some item → Spans s item.2 → item.2.1 = item.2.2) :
    Settles { s with
      toWorkers := before ++ after
      toGateway := s.toGateway ++ sent
      fastPathSlot := slot } := by
  refine ⟨settles.proved, fun m member item answers spans => ?_⟩
  simp only [List.mem_append] at member
  rcases member with (old | old) | old | new
  · exact settles.work m (by simp [taken, old]) item answers spans
  · exact settles.work m (by simp [taken, old]) item answers spans
  · exact settles.work m (List.mem_append_right _ old) item answers spans
  · exact .inl (single m new item answers spans)

/-- With embed proofs that verify, every step keeps the invariant. -/
theorem Settles.step (verified : ∀ proof, machines.verify proof = true) (holds : Inv s)
    (settles : Settles s) (step : Step total combineSize machines s s') : Settles s' := by
  cases step with
  | emit =>
    constructor
    · intro key proof live spans
      have below := holds.range_lt live
      simp only [Spans, IndexedProof.range_eq] at spans below
      simp only [ProofNode.range_proved, IndexedProof.range_eq] at below
      omega
    · intro msg member item answers spans
      have below := holds.work_lt (List.mem_filterMap.mpr ⟨msg, member, answers⟩)
      simp only [Spans] at spans
      omega
  | emulatorComplete => exact ⟨settles.proved, settles.work⟩
  | gatewayEmulator running channel handled =>
    rcases GatewayLoop.onEmulatorMsg_cases (holds.running running) handled with
      ⟨req, tree, rfl, init, rfl, rfl⟩ | ⟨rfl, rfl, rfl⟩
    · obtain ⟨tree', init', appended⟩ :=
        ProofTree.initNode_last (holds.queued_above
          (show GatewayMsg.riscv (.request req) ∈ s.emulatorChannel by simp [channel]))
      obtain rfl := Except.ok.inj (init.symm.trans init')
      constructor
      · intro key proof live spans
        simp only [afterGateway, entries, appended, List.mem_append, List.mem_singleton] at live
        rcases live with old | new
        · exact settles.proved key proof old spans
        · simp at new
      · intro msg member item answers spans
        simp only [afterGateway, List.append_assoc, List.mem_append, List.mem_singleton] at member
        rcases member with old | rfl | old
        · exact settles.work msg (List.mem_append_left _ old) item answers spans
        · obtain rfl := Option.some.inj answers.symm
          exact .inl rfl
        · exact settles.work msg (List.mem_append_right _ old) item answers spans
    · exact ⟨settles.proved, settles.work⟩
  | gatewayWorker running channel inbox handled =>
    rename_i msg rest _ act
    have kept : ∀ msg ∈ s.toWorkers ++ s.toGateway.tail, msg ∈ s.toWorkers ++ s.toGateway :=
      fun _ member => ((List.tail_sublist _).append_left _).subset member
    rcases GatewayLoop.onWorkerMsg_cases (holds.running running) handled with
      ⟨rfl, rfl, rfl⟩ | ⟨proof, rfl, rfl, rfl⟩ | ⟨chunkIndex, proof, tree, isResponse, rfl, acted⟩
    · exact ⟨settles.proved, fun msg member => settles.work msg (kept msg (by simpa [inbox] using member))⟩
    · exact ⟨settles.proved, fun msg member => settles.work msg (kept msg (by simpa [inbox] using member))⟩
    · have answers : msg.work = some (chunkIndex, proof.range) := by
        rcases isResponse with rfl | rfl <;> rfl
      have response : ∀ req, msg ≠ .combine (.request req) := fun req => by
        rcases isResponse with rfl | rfl <;> simp
      rcases acted with ⟨set, rfl⟩ | ⟨first, second, set, rfl⟩
      · have applied := settles.applied holds channel inbox answers response set (.inl ⟨rfl, rfl⟩)
        rwa [List.append_nil] at applied
      · exact settles.applied holds channel inbox answers response set (.inr ⟨first, second, rfl, rfl⟩)
  | prover taken handled =>
    rename_i before after msg sent exits
    have given : msg ∈ s.toWorkers := by rw [taken]; exact List.mem_append_right _ (.head _)
    rcases Prover.handle_cases handled with
      ⟨req, rfl, rfl, rfl⟩ | ⟨req, res, rfl, combined, ⟨rfl, rfl⟩ | ⟨flagged, proof, rfl, rfl⟩⟩ |
        ⟨rfl, -, -⟩
    · refine settles.replied taken fun m member item answers _ => ?_
      simp only [List.mem_cons, List.mem_singleton, List.not_mem_nil, or_false] at member
      rcases member with rfl | rfl
      · obtain rfl := Option.some.inj answers.symm
        rfl
      · cases answers
    · obtain ⟨first, second, rest, proofs, -, index, range⟩ := Prover.combine_ok combined
      refine settles.replied taken fun m member item answers spans => ?_
      simp only [List.mem_cons, List.mem_singleton, List.not_mem_nil, or_false] at member
      rcases member with rfl | rfl
      · obtain rfl := Option.some.inj answers.symm
        rcases holds.toWorkers _ given with ⟨_, stuck⟩ | ⟨_, first', second', same, pair, -⟩
        · cases stuck
        cases same
        obtain ⟨rfl, rfl, rfl⟩ : first' = first ∧ second' = second ∧ rest = [] := by
          simpa [pair] using proofs
        have spansRequest : Spans s (pairRange req.chunkIndex req.proofs) := by
          simpa [pair, ← range] using spans
        rcases settles.work _ (List.mem_append_left _ given) _ rfl spansRequest with same | ⟨_, same, flagged⟩
        · show res.proof.range.1 = res.proof.range.2
          rw [range]
          simpa [pairRange, pair] using same
        · cases same
          simp [Prover.handle, combined, flagged, verified, bind, Except.bind, pure, Except.pure]
            at handled
      · cases answers
    · exact settles.replied taken fun m member item answers _ => by
        simp only [List.mem_cons, List.mem_singleton, List.not_mem_nil, or_false] at member
        rcases member with rfl | rfl <;> cases answers
    · rcases holds.toWorkers _ given with ⟨_, stuck⟩ | ⟨_, _, _, stuck, -⟩ <;> cases stuck

/-- With embed proofs that verify, every reachable state keeps the invariant. -/
theorem settles_reachable (verified : ∀ proof, machines.verify proof = true)
    (reachable : Reachable total combineSize machines s) : Settles s := by
  induction reachable with
  | init => exact ⟨by simp [init, entries, GatewayHandler.new, ProofTree.default], by simp [init]⟩
  | step reachable step settles => exact settles.step verified (reachable_inv reachable) step

end Settle

section Stuck

/-- A stuck emulator has sent `EmulatorComplete`. -/
theorem stuck_emulatorDone (reachable : Reachable total combineSize machines s)
    (stuck : ∀ s', ¬ Step total combineSize machines s s') : s.emulatorDone = true := by
  cases waiting : s.emulatorDone with
  | true => rfl
  | false =>
    rcases Nat.lt_or_eq_of_le (emitted_le reachable).1 with fewer | same
    · exact (stuck _ (.emit waiting fewer)).elim
    · exact (stuck _ (.emulatorComplete waiting same)).elim

/-- Stuck provers have nothing queued: every message they could take goes through. -/
theorem stuck_idle (sized : 2 ≤ combineSize) (reachable : Reachable total combineSize machines s)
    (stuck : ∀ s', ¬ Step total combineSize machines s s') : s.toWorkers = [] := by
  cases queued : s.toWorkers with
  | nil => rfl
  | cons msg rest =>
    obtain ⟨⟨sent, exits⟩, handled⟩ :=
      ((reachable_inv reachable).checksPass machines sized).provers msg (by simp [queued])
    exact (stuck _ (.prover (show s.toWorkers = [] ++ msg :: rest from queued) handled)).elim

/-- A stuck gateway that still runs has nothing left to read. -/
theorem stuck_drained (sized : 2 ≤ combineSize) (reachable : Reachable total combineSize machines s)
    (stuck : ∀ s', ¬ Step total combineSize machines s s') (running : s.gatewayRunning = true) :
    s.emulatorChannel = [] ∧ s.toGateway = [] := by
  have checks := (reachable_inv reachable).checksPass machines sized
  cases channel : s.emulatorChannel with
  | cons msg rest =>
    obtain ⟨⟨h, act⟩, handled⟩ := checks.gatewayEmulator running msg rest channel
    exact (stuck _ (.gatewayEmulator running channel handled)).elim
  | nil =>
    cases inbox : s.toGateway with
    | nil => exact ⟨rfl, rfl⟩
    | cons msg rest =>
      obtain ⟨⟨h, act⟩, handled⟩ := checks.gatewayWorker running channel msg rest inbox
      exact (stuck _ (.gatewayWorker running channel inbox handled)).elim

/-- With every channel drained while the gateway runs, no slot waits for work: the tree is
one proved slot spanning every chunk emitted. -/
theorem Inv.drained_single (holds : Inv s) (running : s.gatewayRunning = true)
    (channel : s.emulatorChannel = []) (idle : s.toWorkers = []) (inbox : s.toGateway = [])
    (started : 0 < s.emitted) :
    ∃ key proof, s.entries = [(key, .proved proof)] ∧ Spans s proof.range := by
  have noSlot : s.fastPathSlot = none := by
    cases slot : s.fastPathSlot with
    | none => rfl
    | some key =>
      obtain ⟨before, proof, after, queue, -⟩ := holds.finalsQueued (by simp [slot]) running
      simp [inbox] at queue
  have proved : ∀ entry ∈ s.entries, entry.2.isProved = true := by
    rintro ⟨key, proofs | proof⟩ live
    · have waiting := holds.slotWork key proofs live
      simp [workKeys, work, idle, inbox, noSlot] at waiting
    · rfl
  have short := holds.noProvedNeighbours.length_le_one proved
  have tiles := holds.tiles
  simp only [pendingRanges, channel, List.filterMap_nil, List.append_nil] at tiles
  match live : s.entries, short with
  | [], _ =>
    simp only [live, slotRanges, List.map_nil, tiles_nil] at tiles
    omega
  | [(key, .proved proof)], _ =>
    refine ⟨key, proof, rfl, ?_⟩
    simp only [slotRanges, live, List.map_cons, List.map_nil, tiles_cons, tiles_nil] at tiles
    exact ⟨tiles.1, tiles.2.2⟩
  | [(key, .inProgress proofs)], _ =>
    simpa using proved (key, .inProgress proofs) (by simp [live])

/-- A run of two chunks or more that no thread can take further has left the gateway's loop
through its `Exit` arm, on the fast path's embed proof. -/
theorem stuck_exited (sized : 2 ≤ combineSize)
    (verified : ∀ proof, machines.verify proof = true) (several : 2 ≤ total)
    (reachable : Reachable total combineSize machines s)
    (stuck : ∀ s', ¬ Step total combineSize machines s s') :
    s.handler.complete = true ∧ s.completion = some s.handler.embedProof := by
  have holds := reachable_inv reachable
  cases running : s.gatewayRunning with
  | false =>
    obtain ⟨-, embedded, signal, -⟩ := holds.stopped running
    exact ⟨embedded, signal⟩
  | true =>
    obtain ⟨channel, inbox⟩ := stuck_drained sized reachable stuck running
    have emitted := (emitted_le reachable).2 (stuck_emulatorDone reachable stuck)
    obtain ⟨key, proof, live, spans⟩ :=
      holds.drained_single running channel (stuck_idle sized reachable stuck) inbox (by omega)
    have single := (settles_reachable verified reachable).proved key proof (by simp [live]) spans
    simp only [Spans, IndexedProof.range_eq] at spans
    omega

/-- A run of two chunks or more that no thread can take further has completed: the gateway has
taken its `Exit` arm on the fast path's embed proof, and `prove_task` receives the on-chain
bytes exactly when `prove_embed_onchain` returns on that proof; otherwise its panic has dropped
the completion sender. -/
theorem stuck_run_completed (sized : 2 ≤ combineSize)
    (verified : ∀ proof, machines.verify proof = true) (several : 2 ≤ total)
    (reachable : Reachable total combineSize machines s)
    (stuck : ∀ s', ¬ Step total combineSize machines s s') (gnark : Onchain.Gnark E) :
    s.handler.complete = true ∧ ∃ embedProof, s.handler.embedProof = some embedProof ∧
      s.completion = some (some embedProof) ∧
      ((∃ bytes, s.signal gnark = some (.ok bytes)) ↔ gnark.Returns embedProof) := by
  obtain ⟨complete, fired⟩ := stuck_exited sized verified several reachable stuck
  obtain ⟨embedProof, stored⟩ := Option.isSome_iff_exists.mp complete
  rw [stored] at fired
  refine ⟨complete, embedProof, stored, fired, ?_⟩
  simp only [signal, fired, Option.map_some', Option.some.injEq]
  exact (Onchain.exitArm_ok_iff gnark _).trans
    ⟨fun returns => returns _ rfl, fun returns _ same => Option.some.inj same ▸ returns⟩

/-- The gnark prover down: `prove_embed_onchain` returns its error, and no bytes are sent. -/
def dockerDown : Onchain.Gnark (Nat × Nat) := ⟨fun _ => true, fun _ => .error "docker not running"⟩

theorem stuck_run_completed_two_chunks :
    ∃ s, runTurns 2 2 Machines.ranges init twoChunkTurns = some s ∧
      Reachable 2 2 Machines.ranges s ∧ (∀ s', ¬ Step 2 2 Machines.ranges s s') ∧
      s.handler.complete = true ∧ ∃ embedProof, s.handler.embedProof = some embedProof ∧
        s.completion = some (some embedProof) ∧
        ((∃ bytes, s.signal dockerDown = some (.ok bytes)) ↔ dockerDown.Returns embedProof) := by
  obtain ⟨s, run, done, idle, stopped⟩ : ∃ s, runTurns 2 2 Machines.ranges init twoChunkTurns = some s ∧
      s.emulatorDone = true ∧ s.toWorkers = [] ∧ s.gatewayRunning = false :=
    ⟨_, rfl, rfl, rfl, rfl⟩
  have reachable := runTurns_reachable 2 2 Machines.ranges .init run
  have stuck : ∀ s', ¬ Step 2 2 Machines.ranges s s' := fun _ => not_step done idle (.inl stopped)
  exact ⟨s, run, reachable, stuck,
    stuck_run_completed le_rfl (fun _ => rfl) le_rfl reachable stuck dockerDown⟩

/-- One chunk: emitted, registered and proved; its proof is stored as the lone proved slot. -/
def singleChunkTurns : List Turn :=
  [.emulator, .emulator, .gatewayEmulator, .gatewayEmulator, .prover 0, .gatewayWorker,
    .gatewayWorker]

/-- A run of one chunk stalls: the lone proof is stored, no pair is ever handed out, so no merge
is flagged complete and nothing takes the fast path. With the emulator done and nothing in
flight no thread can move, no embed proof is stored and the completion signal never fires. -/
theorem single_chunk_stalls :
    ∃ s : Pipeline (Nat × Nat) (Nat × Nat), Reachable 1 2 Machines.ranges s ∧ s.emitted = 1 ∧
      s.emulatorDone = true ∧ s.emulatorChannel = [] ∧ s.toWorkers = [] ∧ s.toGateway = [] ∧
      s.handler.complete = false ∧ s.completion = none ∧ ∀ s', ¬ Step 1 2 Machines.ranges s s' := by
  obtain ⟨s, run, emitted, done, channel, idle, inbox, incomplete, silent⟩ :
      ∃ s, runTurns 1 2 Machines.ranges init singleChunkTurns = some s ∧ s.emitted = 1 ∧
        s.emulatorDone = true ∧ s.emulatorChannel = [] ∧ s.toWorkers = [] ∧ s.toGateway = [] ∧
        s.handler.complete = false ∧ s.completion = none :=
    ⟨_, rfl, rfl, rfl, rfl, rfl, rfl, rfl, rfl⟩
  exact ⟨s, runTurns_reachable 1 2 Machines.ranges .init run, emitted, done, channel, idle, inbox,
    incomplete, silent, fun _ => not_step done idle (.inr ⟨channel, inbox⟩)⟩

end Stuck

/-- Three chunks with the emulator lagging: chunks 0 and 1 are proved and merged before chunk 2
is emitted, and a prover finishes the merge on the fast path. -/
def earlyTurns : List Turn :=
  [.emulator, .emulator, .gatewayEmulator, .gatewayEmulator, .prover 0, .prover 0,
    .gatewayWorker, .gatewayWorker, .gatewayWorker, .prover 0, .gatewayWorker, .gatewayWorker]

theorem flag_iff_covers_emitted_lagging :
    ∃ s msg rest h req, runTurns 3 2 Machines.ranges init (earlyTurns.take 8) = some s ∧
      Reachable 3 2 Machines.ranges s ∧ s.gatewayRunning = true ∧ s.emulatorChannel = [] ∧
      s.toGateway = msg :: rest ∧
      GatewayLoop.onWorkerMsg s.handler msg = .ok (h, .send (.combine (.request req))) ∧
      ∃ first second, req.proofs = [first, second] ∧
        (req.flagComplete = true ↔ first.startChunk = 0 ∧ second.endChunk + 1 = s.emitted) := by
  obtain ⟨s, msg, rest, h, req, run, running, channel, inbox, handled⟩ : ∃ s msg rest h req,
      runTurns 3 2 Machines.ranges init (earlyTurns.take 8) = some s ∧
      s.gatewayRunning = true ∧ s.emulatorChannel = [] ∧ s.toGateway = msg :: rest ∧
      GatewayLoop.onWorkerMsg s.handler msg = .ok (h, .send (.combine (.request req))) :=
    ⟨_, _, _, _, _, rfl, rfl, rfl, rfl, rfl⟩
  have reachable := runTurns_reachable 3 2 Machines.ranges .init run
  exact ⟨s, msg, rest, h, req, run, reachable, running, channel, inbox, handled,
    flag_iff_covers_emitted reachable running channel inbox handled⟩

/-- The flag does not wait for the emulator: in a run of three chunks the gateway flags the
merge of chunks 0 and 1 complete, and the run completes on it, the completion signal carrying
an embed proof of chunks 0 and 1 only. -/
theorem flag_before_last_chunk :
    (¬ ∀ s : Pipeline (Nat × Nat) (Nat × Nat), Reachable 3 2 Machines.ranges s →
      ∀ req, .combine (.request req) ∈ s.toWorkers →
        (req.flagComplete = true ↔ pairRange req.chunkIndex req.proofs = (0, 2))) ∧
    ∃ s : Pipeline (Nat × Nat) (Nat × Nat), Reachable 3 2 Machines.ranges s ∧
      s.emitted = 2 ∧ s.completion = some (some (0, 1)) := by
  obtain ⟨merged, mergedRun, queued⟩ : ∃ s, runTurns 3 2 Machines.ranges init (earlyTurns.take 9) = some s ∧
      .combine (.request ⟨true, 1, [⟨(0, 0), 0, 0⟩, ⟨(1, 1), 1, 1⟩]⟩) ∈ s.toWorkers :=
    ⟨_, rfl, by decide⟩
  obtain ⟨done, doneRun, emitted, signal⟩ : ∃ s, runTurns 3 2 Machines.ranges init earlyTurns = some s ∧
      s.emitted = 2 ∧ s.completion = some (some (0, 1)) := ⟨_, rfl, rfl, rfl⟩
  refine ⟨fun flagOnlyWholeRange => ?_, done, runTurns_reachable 3 2 Machines.ranges .init doneRun, emitted, signal⟩
  have flagged := flagOnlyWholeRange merged (runTurns_reachable 3 2 Machines.ranges .init mergedRun) _ queued
  simp at flagged

/-! ## Runs that never take the fast path -/

section Unfinished

/-- The fast path not taken, the gateway in its loop, no signal fired. -/
structure Unfinished (s : Pipeline P E) : Prop where
  noFastPath : s.fastPathSlot = none
  running : s.gatewayRunning = true
  silent : s.completion = none

/-- While no prover can leave its loop on anything but `Exit`, no step takes the fast path: no
embed proof or `Exit` reaches the gateway. -/
theorem Unfinished.step (holds : Inv s) (unfinished : Unfinished s)
    (exits : ∀ {before after : List (GatewayMsg P E)} {msg : GatewayMsg P E}
      {sent : List (GatewayMsg P E)}, s.toWorkers = before ++ msg :: after →
      Prover.handle combineSize machines msg = .ok (sent, true) → msg = .exit)
    (step : Step total combineSize machines s s') : Unfinished s' := by
  obtain ⟨noFastPath, running, silent⟩ := unfinished
  cases step with
  | emit | emulatorComplete => exact ⟨noFastPath, running, silent⟩
  | gatewayEmulator _ _ handled =>
    rcases GatewayLoop.onEmulatorMsg_cases (holds.running running) handled with
      ⟨_, _, -, -, -, rfl⟩ | ⟨-, -, rfl⟩ <;> exact ⟨noFastPath, running, silent⟩
  | gatewayWorker _ _ inbox handled =>
    rcases GatewayLoop.onWorkerMsg_cases (holds.running running) handled with
      ⟨-, -, rfl⟩ | ⟨proof, rfl, -, -⟩ | ⟨_, _, _, -, -, ⟨-, rfl⟩ | ⟨_, _, -, rfl⟩⟩
    · exact ⟨noFastPath, running, silent⟩
    · exact absurd (holds.noFinals noFastPath (.embed proof) (by simp [inbox])) (by simp)
    · exact ⟨noFastPath, running, silent⟩
    · exact ⟨noFastPath, running, silent⟩
  | prover taken handled =>
    rename_i before after msg sent exits'
    cases exits' with
    | false => exact ⟨noFastPath, running, silent⟩
    | true =>
      obtain rfl := exits taken handled
      exact ⟨rfl, running, silent⟩

end Unfinished

/-! ## An embed verification that rejects every proof -/

section Rejected

/-- With an embed verification that rejects every proof, no run ever completes: the fast path
is never taken, the gateway never leaves its loop and the completion signal never fires. -/
theorem rejected_never_completes (rejects : ∀ proof, machines.verify proof = false)
    (reachable : Reachable total combineSize machines s) :
    s.fastPathSlot = none ∧ s.gatewayRunning = true ∧ s.completion = none := by
  have unfinished : Unfinished s := by
    induction reachable with
    | init => exact ⟨rfl, rfl, rfl⟩
    | step reached step ih =>
      exact ih.step (reachable_inv reached)
        (fun _ handled => Prover.handle_exits_of_rejects rejects handled) step
  exact ⟨unfinished.noFastPath, unfinished.running, unfinished.silent⟩

/-- Two chunks whose final embed proof is rejected: the flagged merge comes back as a combine
response and is stored as the lone proved slot, and the run stops with nothing in flight and
no signal. -/
theorem rejected_never_completes_two_chunks :
    ∃ s, runTurns 2 2 Machines.rejecting init (twoChunkTurns ++ [Turn.gatewayWorker]) = some s ∧
      (∀ s', ¬ Step 2 2 Machines.rejecting s s') ∧
      s.fastPathSlot = none ∧ s.gatewayRunning = true ∧ s.completion = none := by
  obtain ⟨s, run, done, idle, channel, inbox⟩ : ∃ s,
      runTurns 2 2 Machines.rejecting init (twoChunkTurns ++ [Turn.gatewayWorker]) = some s ∧
        s.emulatorDone = true ∧ s.toWorkers = [] ∧ s.emulatorChannel = [] ∧ s.toGateway = [] :=
    ⟨_, rfl, rfl, rfl, rfl, rfl⟩
  exact ⟨s, run, fun _ => not_step done idle (.inr ⟨channel, inbox⟩),
    rejected_never_completes (fun _ => rfl) (runTurns_reachable 2 2 Machines.rejecting .init run)⟩

end Rejected

/-! ## A program of one chunk -/

section OneChunk

/-- Only chunk requests are queued for the provers. -/
def ChunksOnly (s : Pipeline P E) : Prop :=
  ∀ msg ∈ s.toWorkers, ∃ req, msg = .riscv (.request req)

/-- With at most one chunk emitted `set_proof` never hands out a pair: a pair takes two live
slots, and the slots' ranges cover the emitted chunks end to end. -/
theorem Inv.no_pair (holds : Inv s) (fewer : s.emitted ≤ 1) (channel : s.emulatorChannel = [])
    {msg : GatewayMsg P E} {rest : List (GatewayMsg P E)} {chunkIndex : Nat}
    {proof : IndexedProof P} {tree : ProofTree P} {proofs : List (IndexedProof P)}
    (inbox : s.toGateway = msg :: rest) (answers : msg.work = some (chunkIndex, proof.range))
    (set : s.handler.proofTree.setProof chunkIndex proof = .ok (tree, some proofs)) : False := by
  obtain ⟨before, _, after, split, outcome, -⟩ := holds.setProof_outcome channel inbox answers set
  obtain ⟨sizes, nonempty⟩ := outcome.length_add
  have left := List.length_pos.mpr nonempty
  have slots := holds.tiles.length_le
  simp only [List.length_append, length_slotRanges, split, List.length_cons] at slots
  simp only [Option.isSome_some, if_true] at sizes
  omega

/-- With at most one chunk emitted, the provers are only ever given chunk requests. -/
theorem ChunksOnly.step (holds : Inv s) (fewer : s.emitted ≤ 1) (unfinished : Unfinished s)
    (only : ChunksOnly s) (step : Step total combineSize machines s s') : ChunksOnly s' := by
  cases step with
  | emit | emulatorComplete => exact only
  | gatewayEmulator running _ handled =>
    rcases GatewayLoop.onEmulatorMsg_cases (holds.running running) handled with
      ⟨req, _, rfl, -, -, rfl⟩ | ⟨-, -, rfl⟩
    · intro msg member
      rcases List.mem_append.mp member with old | new
      · exact only msg old
      · exact ⟨req, List.mem_singleton.mp new⟩
    · exact only
  | gatewayWorker running channel inbox handled =>
    rename_i msg rest _ act
    rcases GatewayLoop.onWorkerMsg_cases (holds.running running) handled with
      ⟨-, -, rfl⟩ | ⟨proof, rfl, -, -⟩ |
      ⟨chunkIndex, proof, tree, isResponse, -, ⟨-, rfl⟩ | ⟨first, second, set, rfl⟩⟩
    · exact only
    · exact absurd (holds.noFinals unfinished.noFastPath (.embed proof) (by simp [inbox])) (by simp)
    · exact only
    · have answers : msg.work = some (chunkIndex, proof.range) := by
        rcases isResponse with rfl | rfl <;> rfl
      exact (holds.no_pair fewer channel inbox answers set).elim
  | prover taken handled =>
    intro msg member
    exact only msg (taken ▸ ((List.sublist_cons_self _ _).append_left _).subset member)

/-- A prover given only chunk requests never leaves its loop. -/
theorem ChunksOnly.exits (only : ChunksOnly s) {before after : List (GatewayMsg P E)}
    {msg : GatewayMsg P E} {sent : List (GatewayMsg P E)}
    (taken : s.toWorkers = before ++ msg :: after)
    (handled : Prover.handle combineSize machines msg = .ok (sent, true)) : msg = .exit := by
  obtain ⟨req, rfl⟩ := only msg (by simp [taken])
  cases handled

/-- Every state of a run of one chunk has not taken the fast path, and gives the provers only
chunk requests. -/
theorem unfinished_of_one_chunk (reachable : Reachable 1 combineSize machines s) :
    Unfinished s ∧ ChunksOnly s := by
  induction reachable with
  | init => exact ⟨⟨rfl, rfl, rfl⟩, fun _ none => nomatch none⟩
  | step reached step ih =>
    obtain ⟨unfinished, only⟩ := ih
    have holds := reachable_inv reached
    exact ⟨unfinished.step holds only.exits step,
      only.step holds (emitted_le reached).1 unfinished step⟩

/-- A program of one chunk never completes, whatever the interleaving: its lone proof is stored
with no sibling, so no pair is handed out, no merge is flagged and nothing takes the fast
path; the gateway never leaves its loop and the completion signal never fires. -/
theorem single_chunk_never_completes (reachable : Reachable 1 combineSize machines s) :
    s.fastPathSlot = none ∧ s.gatewayRunning = true ∧ s.completion = none := by
  obtain ⟨unfinished, -⟩ := unfinished_of_one_chunk reachable
  exact ⟨unfinished.noFastPath, unfinished.running, unfinished.silent⟩

theorem single_chunk_never_completes_run :
    ∃ s, runTurns 1 2 Machines.ranges init singleChunkTurns = some s ∧
      s.fastPathSlot = none ∧ s.gatewayRunning = true ∧ s.completion = none := by
  obtain ⟨s, run⟩ : ∃ s, runTurns 1 2 Machines.ranges init singleChunkTurns = some s := ⟨_, rfl⟩
  exact ⟨s, run, single_chunk_never_completes (runTurns_reachable 1 2 Machines.ranges .init run)⟩

end OneChunk

end Pipeline

end ProvingService
