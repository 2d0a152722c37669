import ProvingService.Pipeline.Invariant

/-!
# The emitted chunks are partitioned

The ranges of the proved slots and of all work in flight cover every emitted chunk exactly
once. A request stands for its chunk, a response for its proof, a combine request for both of
its proofs, and the fast path's embed proof for the merge it came from; once the gateway has
consumed that embed proof, the proof it stores stands for the merge instead.
-/

set_option autoImplicit false

namespace ProvingService

namespace GatewayMsg

variable {P E : Type}

/-- Whether the message is the fast path's embed proof. -/
def isEmbed : GatewayMsg P E → Bool
  | .embed _ => true
  | _ => false

/-- The chunks a message in flight stands for, given the range of the merge the fast path
finished. -/
def covered (merge : Option (Nat × Nat)) : GatewayMsg P E → List (Nat × Nat)
  | .riscv (.request req) => [(req.chunkIndex, req.chunkIndex)]
  | .riscv (.response res) => [res.proof.range]
  | .combine (.request req) => req.proofs.map IndexedProof.range
  | .combine (.response res) => [res.proof.range]
  | .embed _ => merge.toList
  | _ => []

/-- Two adjacent proofs cover what their union covers. -/
theorem countP_adjacent {first second : IndexedProof P} (adjacent : first.Adjacent second)
    (chunk : Nat) :
    [first.range, second.range].countP (Covers chunk) =
      [(first.startChunk, second.endChunk)].countP (Covers chunk) := by
  obtain ⟨firstNonempty, meet, secondNonempty⟩ := adjacent
  simp only [List.countP_cons, List.countP_nil, Covers, IndexedProof.range_eq, decide_eq_true_eq]
  split_ifs <;> omega

/-- A message in flight covers what its work stands for, and the fast path's embed proof the
merge. -/
theorem countP_covered (merge : Option (Nat × Nat)) (chunk : Nat) (msg : GatewayMsg P E)
    (shaped : ∀ req, msg = .combine (.request req) →
      ∃ first second, req.proofs = [first, second] ∧ first.Adjacent second) :
    (msg.covered merge).countP (Covers chunk) =
      (msg.work.map Prod.snd).toList.countP (Covers chunk) +
        if msg.isEmbed then merge.toList.countP (Covers chunk) else 0 := by
  cases msg with
  | riscv msg => cases msg <;> rfl
  | combine msg =>
    cases msg with
    | request req =>
      obtain ⟨first, second, pair, adjacent⟩ := shaped req rfl
      simpa [covered, pair, isEmbed] using countP_adjacent adjacent chunk
    | response res => rfl
  | embed proof => simp [covered, isEmbed]
  | emulatorComplete | requestTask | close | exit => rfl

theorem countP_flatMap_covered (merge : Option (Nat × Nat)) (chunk : Nat)
    (msgs : List (GatewayMsg P E))
    (shaped : ∀ req, .combine (.request req) ∈ msgs →
      ∃ first second, req.proofs = [first, second] ∧ first.Adjacent second) :
    (msgs.flatMap (covered merge)).countP (Covers chunk) =
      ((msgs.filterMap work).map Prod.snd).countP (Covers chunk) +
        msgs.countP isEmbed * merge.toList.countP (Covers chunk) := by
  induction msgs with
  | nil => simp
  | cons msg msgs ih =>
    have here := countP_covered merge chunk msg fun req same => shaped req (by simp [same])
    have rest := ih fun req member => shaped req (List.mem_cons_of_mem _ member)
    rw [List.flatMap_cons, List.countP_append, here, rest, List.countP_cons, List.filterMap_cons]
    clear here rest ih
    cases msg.work <;> cases msg.isEmbed <;>
      simp only [Option.map_none', Option.map_some', Option.toList_none, Option.toList_some,
        List.map_cons, List.countP_cons, List.countP_nil, ite_true, ite_false,
        Bool.false_eq_true, Nat.add_mul, Nat.one_mul, Nat.zero_mul, Nat.add_zero, Nat.zero_add] <;>
      omega

/-- What the emulator queues stands for the chunks it has sent. -/
theorem flatMap_covered_pending (merge : Option (Nat × Nat)) (msgs : List (GatewayMsg P E))
    (queued : ∀ msg ∈ msgs, msg = .emulatorComplete ∨ ∃ req, msg = .riscv (.request req)) :
    msgs.flatMap (covered merge) = msgs.filterMap pendingRange := by
  induction msgs with
  | nil => rfl
  | cons msg msgs ih =>
    rw [List.flatMap_cons, List.filterMap_cons, ih fun other member => queued other (.tail _ member)]
    rcases queued msg (List.mem_cons_self _ _) with rfl | ⟨req, rfl⟩ <;> rfl

end GatewayMsg

namespace Pipeline

variable {P E : Type} {s : Pipeline P E}

/-- The fast path's slot and the range of the merge it finished: the pair waiting there. -/
def fastPathItem (s : Pipeline P E) : Option (Nat × (Nat × Nat)) :=
  s.fastPathSlot.bind fun key =>
    (s.entries.find? fun entry => entry.1 == key).map fun entry => (key, entry.2.range key)

/-- The range of the merge the fast path finished. -/
def fastPathRange (s : Pipeline P E) : Option (Nat × Nat) := s.fastPathItem.map Prod.snd

/-- The ranges of the proved slots and of all work in flight. -/
def coverage (s : Pipeline P E) : List (Nat × Nat) :=
  slotRanges (s.entries.filter fun entry => entry.2.isProved) ++
    (s.emulatorChannel ++ s.toWorkers ++ s.toGateway).flatMap (GatewayMsg.covered s.fastPathRange)

/-- The embed proof the gateway has stored, counted for the merge it came from. -/
def storedRange (s : Pipeline P E) : List (Nat × Nat) :=
  if s.handler.embedProof.isSome then s.fastPathRange.toList else []

/-- The slots waiting for a proof, with the chunks they stand for. -/
def waitingSlots (s : Pipeline P E) : List (Nat × (Nat × Nat)) :=
  (s.entries.filter fun entry => !entry.2.isProved).map fun entry => (entry.1, entry.2.range entry.1)

theorem mem_waitingSlots {item : Nat × (Nat × Nat)} :
    item ∈ s.waitingSlots ↔
      ∃ proofs, (item.1, ProofNode.inProgress proofs) ∈ s.entries ∧ pairRange item.1 proofs = item.2 := by
  constructor
  · intro member
    obtain ⟨⟨key, node⟩, kept, rfl⟩ := List.mem_map.mp member
    obtain ⟨live, waiting⟩ := List.mem_filter.mp kept
    cases node with
    | proved proof => simp at waiting
    | inProgress proofs => exact ⟨proofs, live, rfl⟩
  · rintro ⟨proofs, live, range⟩
    exact List.mem_map.mpr ⟨_, List.mem_filter.mpr ⟨live, rfl⟩, by rw [ProofNode.range_inProgress, range]⟩

theorem fastPathItem_of_slot {key : Nat} {proofs : List (IndexedProof P)}
    (slot : s.fastPathSlot = some key) (live : (key, ProofNode.inProgress proofs) ∈ s.entries) :
    s.fastPathItem = some (key, pairRange key proofs) := by
  simp [fastPathItem, slot, entries, BTreeMap.find?_of_mem live]

theorem Inv.fastPathItem_keys (holds : Inv s) :
    s.fastPathItem.toList.map Prod.fst = s.fastPathSlot.toList := by
  cases slot : s.fastPathSlot with
  | none => simp [fastPathItem, slot]
  | some key =>
    obtain ⟨proofs, live⟩ := holds.fastPathSlot key slot
    simp [fastPathItem_of_slot slot live]

/-- The waiting slots are matched one to one with the work outstanding for them and the fast
path's slot, and stand for the same chunks. -/
theorem Inv.waitingSlots_perm (holds : Inv s) :
    s.waitingSlots.Perm (s.work ++ s.fastPathItem.toList) := by
  have waitingNodup : s.waitingSlots.Nodup := by
    refine List.Nodup.of_map Prod.fst ?_
    simpa [waitingSlots, Function.comp_def] using
      ((List.filter_sublist s.entries).map Prod.fst).nodup
        (BTreeMap.keys_nodup s.handler.proofTree.tree)
  have workNodup : (s.work ++ s.fastPathItem.toList).Nodup := by
    refine List.Nodup.of_map Prod.fst ?_
    simpa only [List.map_append, holds.fastPathItem_keys] using holds.workNodup
  rw [List.perm_ext_iff_of_nodup waitingNodup workNodup]
  intro item
  rw [mem_waitingSlots, List.mem_append, Option.mem_toList]
  constructor
  · rintro ⟨proofs, live, range⟩
    rcases mem_workKeys.mp (holds.slotWork _ _ live) with ⟨other, outstanding⟩ | slot
    · obtain ⟨proofs', live', range'⟩ := holds.workSlot _ outstanding
      obtain rfl := ProofNode.inProgress.inj (BTreeMap.mem_unique live live')
      obtain rfl : other = item.2 := range'.symm.trans range
      exact .inl outstanding
    · exact .inr (by rw [fastPathItem_of_slot slot live, range]; rfl)
  · rintro (outstanding | fast)
    · exact holds.workSlot item outstanding
    · obtain ⟨key, slot, found⟩ := Option.bind_eq_some.mp fast
      obtain ⟨proofs, live⟩ := holds.fastPathSlot key slot
      rw [fastPathItem_of_slot slot live] at fast
      obtain rfl := Option.some.inj fast
      exact ⟨proofs, live, rfl⟩

theorem GatewayMsg.isFinal_of_isEmbed {msg : GatewayMsg P E} (embed : msg.isEmbed = true) :
    msg.isFinal = true := by
  cases msg <;> simp_all [GatewayMsg.isEmbed]

/-- While the fast path's slot is set, its embed proof is either on its way to the gateway or
stored there, never both and never twice. -/
theorem Inv.embeds (holds : Inv s) (fast : s.fastPathSlot.isSome) :
    (s.toWorkers ++ s.toGateway).countP GatewayMsg.isEmbed +
      (if s.handler.embedProof.isSome then 1 else 0) = 1 := by
  have noneFinal : ∀ {msgs : List (GatewayMsg P E)}, (∀ msg ∈ msgs, msg.isFinal = false) →
      msgs.countP GatewayMsg.isEmbed = 0 := fun others =>
    List.countP_eq_zero.mpr fun msg member embed => by
      simpa [others msg member] using GatewayMsg.isFinal_of_isEmbed embed
  have workers : s.toWorkers.countP GatewayMsg.isEmbed = 0 := noneFinal fun msg member => by
    rcases holds.toWorkers msg member with ⟨_, rfl⟩ | ⟨_, _, _, rfl, -⟩ <;> rfl
  cases running : s.gatewayRunning with
  | true =>
    obtain ⟨before, proof, after, queue, others⟩ := holds.finalsQueued fast running
    have inFront := noneFinal fun msg member => others msg (List.mem_append_left _ member)
    have behind := noneFinal fun msg member => others msg (List.mem_append_right before member)
    simp [queue, workers, inFront, behind, holds.running running, GatewayMsg.isEmbed]
  | false =>
    obtain ⟨-, stored, -, noEmbed⟩ := holds.stopped running
    have gateway : s.toGateway.countP GatewayMsg.isEmbed = 0 :=
      List.countP_eq_zero.mpr fun msg member embed => by
        cases msg with
        | embed proof => exact noEmbed _ member proof rfl
        | _ => cases embed
    simp [workers, gateway, stored]

section Run

variable {total combineSize : Nat} {machines : Machines P E}

/-- In every reachable state the proved slots and the work in flight partition the emitted
chunks, the fast path's embed proof standing for the merge it came from, whether it is still
on its way to the gateway or already stored there; read in key order, the live slots' ranges
run end to end, followed by the chunks still queued, and each key lies in its own range. -/
theorem coverage_partition (reachable : Reachable total combineSize machines s) :
    Partition s.emitted (s.coverage ++ s.storedRange) ∧
      Tiles 0 s.emitted (slotRanges s.entries ++ s.pendingRanges) ∧ KeysInRange s.entries := by
  have holds := reachable_inv reachable
  refine ⟨fun chunk => ?_, holds.tiles, holds.keysInRange⟩
  rw [← holds.tiles.partition chunk]
  have shaped : ∀ req, GatewayMsg.combine (.request req) ∈ s.toWorkers ++ s.toGateway →
      ∃ first second, req.proofs = [first, second] ∧ first.Adjacent second := fun req member => by
    rcases List.mem_append.mp member with queued | inbox
    · rcases holds.toWorkers _ queued with ⟨_, stuck⟩ | ⟨_, first, second, same, pair, adjacent⟩
      · cases stuck
      · cases same
        exact ⟨first, second, pair, adjacent⟩
    · rcases holds.toGateway _ inbox with stuck | ⟨_, stuck⟩ | ⟨_, stuck⟩ | stuck <;> cases stuck
  -- the live slots: the proved ones, and the waiting ones matched with the work in flight
  have slots : (slotRanges s.entries).countP (Covers chunk) =
      (slotRanges (s.entries.filter fun entry => entry.2.isProved)).countP (Covers chunk) +
        (s.waitingSlots.map Prod.snd).countP (Covers chunk) := by
    simp only [slotRanges, waitingSlots, List.countP_map, List.map_map]
    exact List.countP_eq_countP_filter_add _ _ _
  have waiting : (s.waitingSlots.map Prod.snd).countP (Covers chunk) =
      (((s.toWorkers ++ s.toGateway).filterMap GatewayMsg.work).map Prod.snd).countP (Covers chunk) +
        s.fastPathRange.toList.countP (Covers chunk) := by
    rw [(holds.waitingSlots_perm.map Prod.snd).countP_eq, List.map_append, List.countP_append,
      fastPathRange]
    cases s.fastPathItem <;> rfl
  have inFlight := GatewayMsg.countP_flatMap_covered s.fastPathRange chunk _ shaped
  have pending := GatewayMsg.flatMap_covered_pending s.fastPathRange _ holds.emulatorChannel
  rw [List.countP_append _ (slotRanges s.entries), slots, waiting, coverage, storedRange,
    List.append_assoc s.emulatorChannel, List.flatMap_append, pending, List.countP_append,
    List.countP_append _ (slotRanges _), List.countP_append _ (List.filterMap _ _), inFlight,
    pendingRanges]
  cases slot : s.fastPathSlot with
  | none =>
    have noMerge : s.fastPathRange = none := by simp [fastPathRange, fastPathItem, slot]
    simp only [noMerge, Option.toList_none, List.countP_nil, Nat.mul_zero, ite_self]
    omega
  | some key =>
    have embeds := holds.embeds (by simp [slot])
    cases stored : s.handler.embedProof.isSome <;>
      simp only [stored, ite_true, ite_false, Bool.false_eq_true, List.countP_nil] at embeds ⊢
    · rw [Nat.add_zero] at embeds
      rw [embeds, Nat.one_mul]
      omega
    · rw [show (s.toWorkers ++ s.toGateway).countP GatewayMsg.isEmbed = 0 by omega, Nat.zero_mul]
      omega

end Run

/-- Two chunks: emitted and registered, proved in order, merged with the pair flagged
complete, finished on the fast path, and the embed proof taken by the gateway. -/
def twoChunkTurns : List Turn :=
  [.emulator, .emulator, .emulator, .gatewayEmulator, .gatewayEmulator, .gatewayEmulator,
    .prover 0, .prover 0, .gatewayWorker, .gatewayWorker, .gatewayWorker, .gatewayWorker,
    .prover 0, .gatewayWorker]

theorem coverage_partition_two_chunks :
    ∃ s, runTurns 2 2 Machines.ranges init twoChunkTurns = some s ∧
      Reachable 2 2 Machines.ranges s ∧ Partition s.emitted (s.coverage ++ s.storedRange) ∧
      Tiles 0 s.emitted (slotRanges s.entries ++ s.pendingRanges) ∧ KeysInRange s.entries := by
  obtain ⟨s, run⟩ : ∃ s, runTurns 2 2 Machines.ranges init twoChunkTurns = some s := ⟨_, rfl⟩
  have reachable := runTurns_reachable 2 2 Machines.ranges .init run
  exact ⟨s, run, reachable, coverage_partition reachable⟩

/-- Without the stored embed proof the chunks are not covered: once the gateway has taken the
fast path's embed proof, no proved slot and no message in flight stands for the merge. -/
theorem coverage_misses_stored_embed :
    ¬ ∀ s : Pipeline (Nat × Nat) (Nat × Nat), Reachable 2 2 Machines.ranges s →
      Partition s.emitted s.coverage := by
  intro coverageTiles
  obtain ⟨s, run, emitted, missed⟩ : ∃ s, runTurns 2 2 Machines.ranges init twoChunkTurns = some s ∧
      s.emitted = 2 ∧ s.coverage.countP (Covers 0) = 0 := ⟨_, rfl, rfl, by decide⟩
  have covered := coverageTiles s (runTurns_reachable 2 2 Machines.ranges .init run) 0
  simp [missed, emitted] at covered

end Pipeline

end ProvingService
