import ProvingService.Pipeline.System
import ProvingService.ProofTree.Coverage
import ProvingService.ProofTree.Reduction

/-!
# What every reachable state of a proving run keeps

The live slots of the proof tree, read in key order and followed by the chunks still queued
by the emulator, cover the emitted chunks end to end. Every slot waiting for a proof has
exactly one piece of work outstanding for it (a request or a response in a channel), unless a
prover finished it on the fast path; then its embed proof is queued ahead of its `Exit`.
-/

set_option autoImplicit false

namespace ProvingService

namespace GatewayMsg

variable {P E : Type}

/-- The chunk a request still queued by the emulator stands for. -/
def pendingRange : GatewayMsg P E → Option (Nat × Nat)
  | .riscv (.request req) => some (req.chunkIndex, req.chunkIndex)
  | _ => none

/-- The slot a piece of outstanding work answers to, and the chunks it stands for. -/
def work : GatewayMsg P E → Option (Nat × (Nat × Nat))
  | .riscv (.request req) => some (req.chunkIndex, (req.chunkIndex, req.chunkIndex))
  | .riscv (.response res) => some (res.chunkIndex, res.proof.range)
  | .combine (.request req) => some (req.chunkIndex, pairRange req.chunkIndex req.proofs)
  | .combine (.response res) => some (res.chunkIndex, res.proof.range)
  | _ => none

/-- The embed proof and the `Exit` a prover sends when it ends on the fast path. -/
def isFinal : GatewayMsg P E → Bool
  | .embed _ | .exit => true
  | _ => false

@[simp] theorem work_requestTask : (requestTask : GatewayMsg P E).work = none := rfl

@[simp] theorem work_embed (proof : E) : (embed proof : GatewayMsg P E).work = none := rfl

@[simp] theorem work_exit : (exit : GatewayMsg P E).work = none := rfl

@[simp] theorem work_emulatorComplete : (emulatorComplete : GatewayMsg P E).work = none := rfl

@[simp] theorem work_riscvRequest (req : RiscvRequest) :
    (riscv (.request req) : GatewayMsg P E).work =
      some (req.chunkIndex, (req.chunkIndex, req.chunkIndex)) := rfl

@[simp] theorem work_riscvResponse (res : RiscvResponse P) :
    (riscv (.response res) : GatewayMsg P E).work = some (res.chunkIndex, res.proof.range) := rfl

@[simp] theorem work_combineRequest (req : CombineRequest P) :
    (combine (.request req) : GatewayMsg P E).work =
      some (req.chunkIndex, pairRange req.chunkIndex req.proofs) := rfl

@[simp] theorem work_combineResponse (res : CombineResponse P) :
    (combine (.response res) : GatewayMsg P E).work = some (res.chunkIndex, res.proof.range) :=
  rfl

@[simp] theorem pendingRange_emulatorComplete :
    (emulatorComplete : GatewayMsg P E).pendingRange = none := rfl

@[simp] theorem pendingRange_riscvRequest (req : RiscvRequest) :
    (riscv (.request req) : GatewayMsg P E).pendingRange = some (req.chunkIndex, req.chunkIndex) :=
  rfl

@[simp] theorem isFinal_embed (proof : E) : (embed proof : GatewayMsg P E).isFinal = true := rfl

@[simp] theorem isFinal_exit : (exit : GatewayMsg P E).isFinal = true := rfl

@[simp] theorem isFinal_requestTask : (requestTask : GatewayMsg P E).isFinal = false := rfl

@[simp] theorem isFinal_riscv (msg : RiscvMsg P) : (riscv msg : GatewayMsg P E).isFinal = false :=
  rfl

@[simp] theorem isFinal_combine (msg : CombineMsg P) :
    (combine msg : GatewayMsg P E).isFinal = false := rfl

section Work

/-- The work of a message list with one message taken out. -/
theorem mem_filterMap_work_insert {msgs rest : List (GatewayMsg P E)} {msg : GatewayMsg P E}
    {item : Nat × (Nat × Nat)} :
    item ∈ (msgs ++ msg :: rest).filterMap work ↔
      msg.work = some item ∨ item ∈ (msgs ++ rest).filterMap work := by
  cases found : msg.work <;> simp [found, eq_comm, or_left_comm]

end Work

theorem isFinal_of_work {msg : GatewayMsg P E} {item : Nat × (Nat × Nat)}
    (answers : msg.work = some item) : msg.isFinal = false := by
  cases msg <;> simp_all [work]

end GatewayMsg

/-- Two live slots at different keys: the tree is not down to one slot. -/
theorem ProofTree.len_ne_one {P : Type} {t : ProofTree P} {key key' : Nat} {node node' : ProofNode P}
    (first : (key, node) ∈ t.tree.entries) (second : (key', node') ∈ t.tree.entries)
    (apart : key ≠ key') : (t.len == 1) = false := by
  refine beq_false_of_ne fun single => apart ?_
  obtain ⟨entry, only⟩ := List.length_eq_one.mp single
  rw [only, List.mem_singleton] at first second
  exact congrArg Prod.fst (first.trans second.symm)

namespace Pipeline

variable {P E : Type}

/-- The proof tree's slots in key order. -/
def entries (s : Pipeline P E) : List (Nat × ProofNode P) := s.handler.proofTree.tree.entries

/-- The chunks the emulator has sent that the gateway has not registered yet. -/
def pendingRanges (s : Pipeline P E) : List (Nat × Nat) :=
  s.emulatorChannel.filterMap GatewayMsg.pendingRange

/-- The work outstanding in the channels between gateway and provers. -/
def work (s : Pipeline P E) : List (Nat × (Nat × Nat)) :=
  (s.toWorkers ++ s.toGateway).filterMap GatewayMsg.work

/-- The slots with work outstanding, and the fast path's slot. -/
def workKeys (s : Pipeline P E) : List Nat := s.work.map Prod.fst ++ s.fastPathSlot.toList

/-- What every reachable state keeps. -/
structure Inv (s : Pipeline P E) : Prop where
  /-- The live slots, then the chunks the emulator has queued, run over `[0, emitted)`. -/
  tiles : Tiles 0 s.emitted (slotRanges s.entries ++ s.pendingRanges)
  keysInRange : KeysInRange s.entries
  noProvedNeighbours : ProofTree.NoProvedNeighbours s.entries
  emulatorChannel : ∀ msg ∈ s.emulatorChannel,
    msg = .emulatorComplete ∨ ∃ req, msg = .riscv (.request req)
  /-- Provers are given chunk requests and pairs of neighbouring proofs, nothing else. -/
  toWorkers : ∀ msg ∈ s.toWorkers, (∃ req, msg = .riscv (.request req)) ∨
    ∃ req first second, msg = .combine (.request req) ∧ req.proofs = [first, second] ∧
      first.Adjacent second
  toGateway : ∀ msg ∈ s.toGateway, msg = .requestTask ∨ (∃ res, msg = .riscv (.response res)) ∨
    (∃ res, msg = .combine (.response res)) ∨ msg.isFinal = true
  /-- No slot has two pieces of work outstanding. -/
  workNodup : s.workKeys.Nodup
  /-- Work answers to a slot waiting for it, and stands for the chunks that slot stands for. -/
  workSlot : ∀ item ∈ s.work, ∃ proofs, (item.1, .inProgress proofs) ∈ s.entries ∧
    pairRange item.1 proofs = item.2
  /-- A waiting slot has work outstanding, or is the fast path's. -/
  slotWork : ∀ key proofs, (key, .inProgress proofs) ∈ s.entries → key ∈ s.workKeys
  fastPathSlot : ∀ key ∈ s.fastPathSlot, ∃ proofs, (key, .inProgress proofs) ∈ s.entries
  /-- Requests flagged complete all answer to one slot. -/
  flaggedAlone : ∀ req req', .combine (.request req) ∈ s.toWorkers →
    .combine (.request req') ∈ s.toWorkers → req.flagComplete = true →
      req'.flagComplete = true → req.chunkIndex = req'.chunkIndex
  unflagged : s.fastPathSlot.isSome →
    ∀ req, .combine (.request req) ∈ s.toWorkers → req.flagComplete = false
  noFinals : s.fastPathSlot = none → ∀ msg ∈ s.toGateway, msg.isFinal = false
  /-- The fast path's embed proof is queued ahead of its `Exit`, and is the only final
  message, while the gateway runs. -/
  finalsQueued : s.fastPathSlot.isSome → s.gatewayRunning = true →
    ∃ before proof after, s.toGateway = before ++ .embed proof :: .exit :: after ∧
      ∀ msg ∈ before ++ after, msg.isFinal = false
  running : s.gatewayRunning = true → s.handler.embedProof = none
  /-- The gateway stops only on the fast path's embed proof, and fires the signal with it. -/
  stopped : s.gatewayRunning = false → s.fastPathSlot.isSome ∧ s.handler.embedProof.isSome ∧
    s.completion = some s.handler.embedProof ∧ ∀ msg ∈ s.toGateway, ∀ proof, msg ≠ .embed proof

theorem inv_init : Inv (init : Pipeline P E) where
  tiles := by simp [init, entries, pendingRanges, GatewayHandler.new, ProofTree.default]
  keysInRange := by simp [KeysInRange, init, entries, GatewayHandler.new, ProofTree.default]
  noProvedNeighbours := by
    simp [ProofTree.NoProvedNeighbours, init, entries, GatewayHandler.new, ProofTree.default]
  emulatorChannel := by simp [init]
  toWorkers := by simp [init]
  toGateway := by simp [init]
  workNodup := by simp [workKeys, work, init]
  workSlot := by simp [work, init]
  slotWork := by simp [init, entries, GatewayHandler.new, ProofTree.default]
  fastPathSlot := by simp [init]
  flaggedAlone := by simp [init]
  unflagged := by simp [init]
  noFinals := by simp [init]
  finalsQueued := by simp [init]
  running := fun _ => rfl
  stopped := by simp [init]

/-! ## The emulator's steps -/

section Steps

variable {s : Pipeline P E}

theorem mem_workKeys {key : Nat} :
    key ∈ s.workKeys ↔ (∃ range, (key, range) ∈ s.work) ∨ s.fastPathSlot = some key := by
  simp [workKeys, eq_comm]

/-- Every slot with work outstanding, and the fast path's, is live and waiting. -/
theorem Inv.workKeys_waiting (holds : Inv s) {key : Nat} (member : key ∈ s.workKeys) :
    ∃ proofs, (key, .inProgress proofs) ∈ s.entries := by
  rcases mem_workKeys.mp member with ⟨range, item⟩ | fast
  · obtain ⟨proofs, live, -⟩ := holds.workSlot _ item
    exact ⟨proofs, live⟩
  · exact holds.fastPathSlot key fast

theorem Inv.emit (holds : Inv s) :
    Inv { s with
      emitted := s.emitted + 1
      emulatorChannel := s.emulatorChannel ++ [.riscv (.request ⟨s.emitted⟩)] } :=
  { holds with
    tiles := by simpa [pendingRanges, entries] using holds.tiles.snoc
    emulatorChannel := fun msg member => by
      rcases List.mem_append.mp member with queued | sent
      · exact holds.emulatorChannel msg queued
      · exact .inr ⟨_, List.mem_singleton.mp sent⟩ }

theorem Inv.emulatorComplete (holds : Inv s) :
    Inv { s with
      emulatorDone := true
      emulatorChannel := s.emulatorChannel ++ [.emulatorComplete] } :=
  { holds with
    tiles := by simpa [pendingRanges, entries] using holds.tiles
    emulatorChannel := fun msg member => by
      rcases List.mem_append.mp member with queued | sent
      · exact holds.emulatorChannel msg queued
      · exact .inl (List.mem_singleton.mp sent) }

/-! ## The gateway's steps -/

/-- Registering the chunk at the head of the emulator's channel appends its slot: every
live key is below it, since the queued chunks follow the slots' ranges. -/
theorem Inv.register (holds : Inv s) {req : RiscvRequest} {rest : List (GatewayMsg P E)}
    {tree : ProofTree P} (channel : s.emulatorChannel = .riscv (.request req) :: rest)
    (init : s.handler.proofTree.initNode req.chunkIndex = .ok tree) :
    Inv ({ s with emulatorChannel := rest }.afterGateway { s.handler with proofTree := tree }
      (.send (.riscv (.request req)))) := by
  have pending : s.pendingRanges =
      (req.chunkIndex, req.chunkIndex) :: rest.filterMap GatewayMsg.pendingRange := by
    simp [pendingRanges, channel]
  obtain ⟨mid, slots, queued⟩ := tiles_append.mp (pending ▸ holds.tiles)
  have above : ∀ entry ∈ s.entries, entry.1 < req.chunkIndex := by
    intro entry member
    have covered := holds.keysInRange entry member
    have bounded := slots.bounds.2 _ (List.mem_map_of_mem _ member)
    simp only [Covers, decide_eq_true_eq] at covered
    simp only [tiles_cons] at queued
    omega
  obtain ⟨tree', init', appended⟩ := ProofTree.initNode_last
    (fun key live => by
      obtain ⟨entry, member, rfl⟩ := List.mem_map.mp live
      exact above entry member :
      ∀ key ∈ s.handler.proofTree.tree.keys, key < req.chunkIndex)
  obtain rfl : tree = tree' := Except.ok.inj (init.symm.trans init')
  have fresh : req.chunkIndex ∉ s.workKeys := fun member => by
    obtain ⟨proofs, live⟩ := holds.workKeys_waiting member
    exact Nat.lt_irrefl _ (above _ live)
  have combines : ∀ req', GatewayMsg.combine (.request req') ∈ s.toWorkers ++
      [.riscv (.request req)] → GatewayMsg.combine (.request req') ∈ s.toWorkers := by
    simp
  have grown : ∀ entry ∈ s.entries, entry ∈ tree.tree.entries := fun entry member => by
    rw [appended]
    exact List.mem_append_left _ member
  have keys : (((s.toWorkers ++ .riscv (.request req) :: s.toGateway).filterMap
      GatewayMsg.work).map Prod.fst ++ s.fastPathSlot.toList).Perm
      (req.chunkIndex :: s.workKeys) := by
    simp [workKeys, work]
  exact { holds with
    tiles := by
      show Tiles 0 s.emitted (slotRanges tree.tree.entries ++ rest.filterMap _)
      simpa [appended, pending] using holds.tiles
    keysInRange := by
      show KeysInRange tree.tree.entries
      rw [appended]
      intro entry member
      rcases List.mem_append.mp member with old | new
      · exact holds.keysInRange entry old
      · simp [List.mem_singleton.mp new, Covers]
    noProvedNeighbours := by
      show ProofTree.NoProvedNeighbours tree.tree.entries
      rw [appended]
      exact ProofTree.NoProvedNeighbours.insert rfl holds.noProvedNeighbours List.chain'_nil
    emulatorChannel := fun msg member => holds.emulatorChannel msg (channel ▸ .tail _ member)
    toWorkers := fun msg member => by
      rcases List.mem_append.mp member with old | new
      · exact holds.toWorkers msg old
      · exact .inl ⟨req, List.mem_singleton.mp new⟩
    workNodup := by
      simp only [afterGateway, workKeys, work, List.append_assoc, List.singleton_append]
      exact keys.nodup_iff.mpr (List.nodup_cons.mpr ⟨fresh, holds.workNodup⟩)
    workSlot := fun item member => by
      simp only [afterGateway, work, entries, List.append_assoc, List.singleton_append,
        GatewayMsg.mem_filterMap_work_insert] at member ⊢
      rcases member with new | old
      · obtain rfl : (req.chunkIndex, (req.chunkIndex, req.chunkIndex)) = item := by simpa using new
        exact ⟨[], by simp [appended], rfl⟩
      · obtain ⟨proofs, live, range⟩ := holds.workSlot item old
        exact ⟨proofs, grown _ live, range⟩
    slotWork := fun key proofs live => by
      simp only [afterGateway, entries, workKeys, work, List.append_assoc,
        List.singleton_append] at live ⊢
      refine keys.symm.subset ?_
      rw [appended] at live
      rcases List.mem_append.mp live with old | new
      · exact List.mem_cons_of_mem _ (holds.slotWork key proofs old)
      · obtain ⟨rfl, -⟩ := Prod.mk.inj (List.mem_singleton.mp new)
        exact List.mem_cons_self _ _
    fastPathSlot := fun key fast => by
      obtain ⟨proofs, live⟩ := holds.fastPathSlot key fast
      exact ⟨proofs, grown _ live⟩
    flaggedAlone := fun req₁ req₂ first second =>
      holds.flaggedAlone req₁ req₂ (combines _ first) (combines _ second)
    unflagged := fun fast req' member => holds.unflagged fast req' (combines _ member) }

theorem Inv.emulatorCompleteReceived (holds : Inv s) {rest : List (GatewayMsg P E)}
    (channel : s.emulatorChannel = .emulatorComplete :: rest) :
    Inv ({ s with emulatorChannel := rest }.afterGateway
      { s.handler with emulatorComplete := true } .idle) :=
  { holds with
    tiles := by simpa [afterGateway, pendingRanges, entries, channel] using holds.tiles
    emulatorChannel := fun msg member => holds.emulatorChannel msg (channel ▸ .tail _ member) }

/-- Taking a message that is not final off the provers' channel keeps the fast path's embed
proof queued ahead of its `Exit`. -/
theorem finals_of_cons {msg : GatewayMsg P E} {rest : List (GatewayMsg P E)}
    (notFinal : msg.isFinal = false)
    (queued : ∃ before proof after, msg :: rest = before ++ .embed proof :: .exit :: after ∧
      ∀ other ∈ before ++ after, other.isFinal = false) :
    ∃ before proof after, rest = before ++ .embed proof :: .exit :: after ∧
      ∀ other ∈ before ++ after, other.isFinal = false := by
  obtain ⟨before, proof, after, split, others⟩ := queued
  cases before with
  | nil =>
    obtain ⟨rfl, -⟩ := List.cons.inj split
    simp at notFinal
  | cons first before =>
    obtain ⟨-, rfl⟩ := List.cons.inj split
    exact ⟨before, proof, after, rfl, fun other member => others other (by simp_all)⟩

/-- Reading a message that carries no work off the provers' channel, and sending nothing,
leaves the work as it was. -/
theorem work_read (h : GatewayHandler P E) {msg : GatewayMsg P E} {rest : List (GatewayMsg P E)}
    {act : GatewayAction P E} (inbox : s.toGateway = msg :: rest) (idle : msg.work = none)
    (quiet : act = .idle ∨ ∃ proof, act = .finish proof) :
    ({ s with toGateway := rest }.afterGateway h act).work = s.work ∧
      ({ s with toGateway := rest }.afterGateway h act).workKeys = s.workKeys := by
  have same : ({ s with toGateway := rest }.afterGateway h act).work = s.work := by
    rcases quiet with rfl | ⟨proof, rfl⟩ <;>
      simp only [afterGateway, work, inbox, List.filterMap_append, List.filterMap_cons, idle]
  refine ⟨same, ?_⟩
  rw [workKeys, workKeys, same]
  rcases quiet with rfl | ⟨proof, rfl⟩ <;> rfl

theorem Inv.requestTask (holds : Inv s) {rest : List (GatewayMsg P E)}
    (inbox : s.toGateway = .requestTask :: rest) :
    Inv ({ s with toGateway := rest }.afterGateway s.handler .idle) :=
  have read := work_read s.handler inbox GatewayMsg.work_requestTask (.inl rfl)
  { holds with
    toGateway := fun msg member => holds.toGateway msg (inbox ▸ .tail _ member)
    workNodup := read.2 ▸ holds.workNodup
    workSlot := read.1 ▸ holds.workSlot
    slotWork := read.2 ▸ holds.slotWork
    noFinals := fun fast msg member => holds.noFinals fast msg (inbox ▸ .tail _ member)
    finalsQueued := fun fast running =>
      finals_of_cons GatewayMsg.isFinal_requestTask (inbox ▸ holds.finalsQueued fast running)
    stopped := fun stop => by
      obtain ⟨fast, stored, signal, noEmbed⟩ := holds.stopped stop
      exact ⟨fast, stored, signal, fun msg member => noEmbed msg (inbox ▸ .tail _ member)⟩ }

/-- The gateway takes the fast path's embed proof: it stores it, fires the signal with it
and leaves its loop, with the proof's `Exit` left unread. -/
theorem Inv.embedReceived (holds : Inv s) (running : s.gatewayRunning = true) {proof : E}
    {rest : List (GatewayMsg P E)} (inbox : s.toGateway = .embed proof :: rest) :
    Inv ({ s with toGateway := rest }.afterGateway (s.handler.setEmbedProof proof)
      (.finish (some proof))) := by
  have fast : s.fastPathSlot.isSome := by
    cases slot : s.fastPathSlot with
    | none => simpa using holds.noFinals slot (.embed proof) (by simp [inbox])
    | some key => rfl
  obtain ⟨before, proof', after, queue, others⟩ := holds.finalsQueued fast running
  have noBefore : before = [] := by
    cases before with
    | nil => rfl
    | cons first before =>
      obtain ⟨rfl, -⟩ := List.cons.inj (inbox.symm.trans queue)
      simpa using others _ (List.mem_cons_self _ _)
  subst noBefore
  obtain ⟨-, rfl⟩ := List.cons.inj (inbox.symm.trans queue)
  have read := work_read (s.handler.setEmbedProof proof) inbox (GatewayMsg.work_embed proof)
    (.inr ⟨some proof, rfl⟩)
  exact { holds with
    toGateway := fun msg member => holds.toGateway msg (inbox ▸ .tail _ member)
    workNodup := read.2 ▸ holds.workNodup
    workSlot := read.1 ▸ holds.workSlot
    slotWork := read.2 ▸ holds.slotWork
    noFinals := fun none => by
      simp only [afterGateway] at none
      simp [none] at fast
    finalsQueued := fun _ stop => nomatch stop
    running := fun stop => nomatch stop
    stopped := fun _ => ⟨fast, rfl, rfl, fun msg member _ => by
      rcases List.mem_cons.mp member with rfl | later
      · simp
      · rintro rfl
        simpa using others _ (List.mem_append_right _ later)⟩ }

/-- The proof at the head of the provers' channel answers a waiting slot, which `set_proof`
finds live; what it does keeps the slots' ranges end to end over the emitted chunks. -/
theorem Inv.setProof_outcome (holds : Inv s) (channel : s.emulatorChannel = [])
    {msg : GatewayMsg P E} {rest : List (GatewayMsg P E)} {chunkIndex : Nat}
    {proof : IndexedProof P} {tree : ProofTree P} {result : Option (List (IndexedProof P))}
    (inbox : s.toGateway = msg :: rest) (answers : msg.work = some (chunkIndex, proof.range))
    (set : s.handler.proofTree.setProof chunkIndex proof = .ok (tree, result)) :
    ∃ before proofs after, s.entries = before ++ (chunkIndex, .inProgress proofs) :: after ∧
      ProofTree.SetProofOutcome chunkIndex proof before after tree.tree.entries result ∧
      Tiles 0 s.emitted (slotRanges tree.tree.entries) ∧ KeysInRange tree.tree.entries ∧
      ProofTree.NoProvedNeighbours tree.tree.entries ∧
      ∀ proofs ∈ result, ∃ first second, proofs = [first, second] ∧ first.Adjacent second := by
  obtain ⟨proofs, live, range⟩ := holds.workSlot (chunkIndex, proof.range)
    (by simp [work, inbox, GatewayMsg.mem_filterMap_work_insert, answers])
  obtain ⟨before, after, split⟩ := List.append_of_mem live
  obtain ⟨tree', result', set', outcome⟩ := ProofTree.setProof_split proof split
  obtain ⟨rfl, rfl⟩ := Prod.mk.inj (Except.ok.inj (set.symm.trans set'))
  have tiled : Tiles 0 s.emitted (slotRanges (before ++ (chunkIndex, .inProgress proofs) :: after)
      ++ []) := by
    simpa [pendingRanges, channel, split] using holds.tiles
  obtain ⟨tiles, inRange, pairs⟩ :=
    outcome.tiles tiled (split ▸ holds.keysInRange) (by simpa using range.symm)
  exact ⟨before, proofs, after, split, outcome, by simpa using tiles, inRange,
    outcome.noProvedNeighbours (split ▸ holds.noProvedNeighbours), pairs⟩

/-- The gateway applies the proof at the head of the provers' channel; the pair `set_proof`
hands out, if any, is sent to the provers, flagged complete when one slot is left. -/
theorem Inv.applied (holds : Inv s) (running : s.gatewayRunning = true)
    (channel : s.emulatorChannel = []) {msg : GatewayMsg P E} {rest sent : List (GatewayMsg P E)}
    {chunkIndex : Nat} {proof : IndexedProof P} {tree : ProofTree P}
    {result : Option (List (IndexedProof P))}
    (inbox : s.toGateway = msg :: rest) (answers : msg.work = some (chunkIndex, proof.range))
    (set : s.handler.proofTree.setProof chunkIndex proof = .ok (tree, result))
    (handedOut : result = none ∧ sent = [] ∨ ∃ first second, result = some [first, second] ∧
      sent = [.combine (.request ⟨tree.len == 1, chunkIndex, [first, second]⟩)]) :
    Inv { s with
      handler := { s.handler with proofTree := tree }
      toWorkers := s.toWorkers ++ sent
      toGateway := rest } := by
  obtain ⟨before, proofs, after, split, outcome, tiles, inRange, neighbours, pairs⟩ :=
    holds.setProof_outcome channel inbox answers set
  -- the work left once `msg` is read, and the fast path's slot
  let others := ((s.toWorkers ++ rest).filterMap GatewayMsg.work).map Prod.fst ++
    s.fastPathSlot.toList
  have keys : s.workKeys.Perm (chunkIndex :: others) := by
    simp [others, workKeys, work, inbox, answers]
  obtain ⟨answered, othersNodup⟩ := List.nodup_cons.mp (keys.nodup_iff.mp holds.workNodup)
  have waiting : ∀ {key proofs}, (key, ProofNode.inProgress proofs) ∈ s.entries →
      key ≠ chunkIndex → (key, .inProgress proofs) ∈ tree.tree.entries :=
    fun live apart => outcome.mem_waiting (split ▸ live) apart
  have otherWork : ∀ item ∈ (s.toWorkers ++ rest).filterMap GatewayMsg.work,
      item.1 ≠ chunkIndex ∧ item ∈ s.work := fun item member =>
    ⟨fun same => answered (List.mem_append_left _ (List.mem_map.mpr ⟨item, member, same⟩)), by
      simp only [work, inbox, GatewayMsg.mem_filterMap_work_insert]
      exact .inr member⟩
  have sentWork : ∀ item ∈ sent.filterMap GatewayMsg.work, ∃ first second,
      result = some [first, second] ∧ item = (chunkIndex, (first.startChunk, second.endChunk)) := by
    rcases handedOut with ⟨-, rfl⟩ | ⟨first, second, handed, rfl⟩
    · simp
    · intro item member
      refine ⟨first, second, handed, ?_⟩
      simpa only [List.filterMap_cons, List.filterMap_nil, GatewayMsg.work_combineRequest,
        pairRange_pair, List.mem_singleton] using member
  have keys' : (((s.toWorkers ++ sent ++ rest).filterMap GatewayMsg.work).map Prod.fst ++
      s.fastPathSlot.toList).Perm ((sent.filterMap GatewayMsg.work).map Prod.fst ++ others) := by
    simp only [others, List.filterMap_append, List.map_append, List.append_assoc]
    exact List.perm_append_comm_assoc _ _ _
  have items : ∀ item ∈ (s.toWorkers ++ sent ++ rest).filterMap GatewayMsg.work,
      item ∈ sent.filterMap GatewayMsg.work ∨ item ∈ (s.toWorkers ++ rest).filterMap GatewayMsg.work := by
    intro item member
    simp only [List.filterMap_append, List.mem_append] at member ⊢
    rcases member with (old | new) | old
    · exact .inr (.inl old)
    · exact .inl new
    · exact .inr (.inr old)
  have merged : ∀ {first second}, result = some [first, second] →
      (chunkIndex, ProofNode.inProgress [first, second]) ∈ tree.tree.entries := fun handed => by
    simpa [handed] using outcome.mem_index
  have indexWaiting : ∀ {proofs'}, (chunkIndex, ProofNode.inProgress proofs') ∈ tree.tree.entries →
      result = some proofs' := fun live => by
    have same := BTreeMap.mem_unique outcome.mem_index live
    cases result with
    | none => cases same
    | some handed => cases same; rfl
  have sentRequest : ∀ req, GatewayMsg.combine (.request req) ∈ sent → ∃ first second,
      result = some [first, second] ∧ req = ⟨tree.len == 1, chunkIndex, [first, second]⟩ := by
    rcases handedOut with ⟨-, rfl⟩ | ⟨first, second, handed, rfl⟩
    · simp
    · intro req member
      exact ⟨first, second, handed, by simpa using member⟩
  have oldRequest : ∀ req, GatewayMsg.combine (.request req) ∈ s.toWorkers →
      req.chunkIndex ≠ chunkIndex ∧ ∃ proofs', (req.chunkIndex, .inProgress proofs') ∈ tree.tree.entries := by
    intro req member
    obtain ⟨apart, item⟩ := otherWork _ (List.mem_filterMap.mpr ⟨_, List.mem_append_left _ member, rfl⟩)
    obtain ⟨proofs', live, -⟩ := holds.workSlot _ item
    exact ⟨apart, proofs', waiting live apart⟩
  have fastLive : ∀ key ∈ s.fastPathSlot, key ≠ chunkIndex ∧
      ∃ proofs', (key, .inProgress proofs') ∈ tree.tree.entries := by
    intro key fast
    have apart : key ≠ chunkIndex := fun same =>
      answered (List.mem_append_right _ (Option.mem_toList.mpr (same ▸ fast)))
    obtain ⟨proofs', live⟩ := holds.fastPathSlot key fast
    exact ⟨apart, proofs', waiting live apart⟩
  -- a request flagged complete is only sent when no other slot is live
  have alone : ∀ {key proofs' first second}, (key, ProofNode.inProgress proofs') ∈ tree.tree.entries →
      key ≠ chunkIndex → result = some [first, second] → (tree.len == 1) = false :=
    fun live apart handed => ProofTree.len_ne_one live (merged handed) apart
  exact {
    tiles := by simpa [entries, pendingRanges, channel] using tiles
    keysInRange := inRange
    noProvedNeighbours := neighbours
    emulatorChannel := holds.emulatorChannel
    toWorkers := fun m member => by
      rcases List.mem_append.mp member with old | new
      · exact holds.toWorkers m old
      · rcases handedOut with ⟨-, rfl⟩ | ⟨first, second, handed, rfl⟩
        · cases new
        · obtain rfl := List.mem_singleton.mp new
          obtain ⟨_, _, pair, meet⟩ := pairs _ handed
          obtain ⟨rfl, rfl⟩ : _ ∧ _ := by simpa using pair
          exact .inr ⟨_, _, _, rfl, rfl, meet⟩
    toGateway := fun m member => holds.toGateway m (inbox ▸ .tail _ member)
    workNodup := by
      refine keys'.nodup_iff.mpr ?_
      rcases handedOut with ⟨-, rfl⟩ | ⟨first, second, -, rfl⟩
      · simpa using othersNodup
      · simpa using List.nodup_cons.mpr ⟨answered, othersNodup⟩
    workSlot := fun item member => by
      rcases items item member with new | old
      · obtain ⟨first, second, handed, rfl⟩ := sentWork item new
        exact ⟨[first, second], merged handed, rfl⟩
      · obtain ⟨apart, item⟩ := otherWork item old
        obtain ⟨proofs', live, range⟩ := holds.workSlot _ item
        exact ⟨proofs', waiting live apart, range⟩
    slotWork := fun key proofs' live => by
      refine keys'.symm.subset ?_
      by_cases same : key = chunkIndex
      · subst same
        have handed := indexWaiting live
        rcases handedOut with ⟨none, -⟩ | ⟨first, second, -, rfl⟩
        · simp [none] at handed
        · simp
      · have old : (key, ProofNode.inProgress proofs') ∈
            before ++ (chunkIndex, .inProgress proofs) :: after := outcome.mem_of_ne live same
        rw [← split] at old
        rcases List.mem_cons.mp (keys.subset (holds.slotWork key proofs' old)) with rfl | other
        · exact absurd rfl same
        · exact List.mem_append_right _ other
    fastPathSlot := fun key fast => (fastLive key fast).2
    flaggedAlone := fun req req' member member' flagged flagged' => by
      rcases List.mem_append.mp member with old | new <;>
        rcases List.mem_append.mp member' with old' | new'
      · exact holds.flaggedAlone req req' old old' flagged flagged'
      · obtain ⟨first, second, handed, rfl⟩ := sentRequest req' new'
        obtain ⟨apart, proofs', live⟩ := oldRequest req old
        simp [alone live apart handed] at flagged'
      · obtain ⟨first, second, handed, rfl⟩ := sentRequest req new
        obtain ⟨apart, proofs', live⟩ := oldRequest req' old'
        simp [alone live apart handed] at flagged
      · obtain ⟨-, -, -, rfl⟩ := sentRequest req new
        obtain ⟨-, -, -, rfl⟩ := sentRequest req' new'
        rfl
    unflagged := fun fast req member => by
      rcases List.mem_append.mp member with old | new
      · exact holds.unflagged fast req old
      · obtain ⟨first, second, handed, rfl⟩ := sentRequest req new
        obtain ⟨key, slot⟩ := Option.isSome_iff_exists.mp fast
        obtain ⟨apart, proofs', live⟩ := fastLive key slot
        exact alone live apart handed
    noFinals := fun none m member => holds.noFinals none m (inbox ▸ .tail _ member)
    finalsQueued := fun fast run =>
      finals_of_cons (GatewayMsg.isFinal_of_work answers) (inbox ▸ holds.finalsQueued fast run)
    running := holds.running
    stopped := fun stop => by simp [running] at stop }

theorem Inv.gatewayEmulator (holds : Inv s) (running : s.gatewayRunning = true)
    {msg : GatewayMsg P E} {rest : List (GatewayMsg P E)} {h : GatewayHandler P E}
    {act : GatewayAction P E} (channel : s.emulatorChannel = msg :: rest)
    (handled : GatewayLoop.onEmulatorMsg s.handler msg = .ok (h, act)) :
    Inv ({ s with emulatorChannel := rest }.afterGateway h act) := by
  rcases GatewayLoop.onEmulatorMsg_cases (holds.running running) handled with
    ⟨req, tree, rfl, init, rfl, rfl⟩ | ⟨rfl, rfl, rfl⟩
  · exact holds.register channel init
  · exact holds.emulatorCompleteReceived channel

theorem Inv.gatewayWorker (holds : Inv s) (running : s.gatewayRunning = true)
    (channel : s.emulatorChannel = []) {msg : GatewayMsg P E} {rest : List (GatewayMsg P E)}
    {h : GatewayHandler P E} {act : GatewayAction P E} (inbox : s.toGateway = msg :: rest)
    (handled : GatewayLoop.onWorkerMsg s.handler msg = .ok (h, act)) :
    Inv ({ s with toGateway := rest }.afterGateway h act) := by
  rcases GatewayLoop.onWorkerMsg_cases (holds.running running) handled with
    ⟨rfl, rfl, rfl⟩ | ⟨proof, rfl, rfl, rfl⟩ | ⟨chunkIndex, proof, tree, isResponse, rfl, acted⟩
  · exact holds.requestTask inbox
  · exact holds.embedReceived running inbox
  · have answers : msg.work = some (chunkIndex, proof.range) := by
      rcases isResponse with rfl | rfl <;> rfl
    rcases acted with ⟨set, rfl⟩ | ⟨first, second, set, rfl⟩
    · have applied := holds.applied running channel inbox answers set (.inl ⟨rfl, rfl⟩)
      rwa [List.append_nil] at applied
    · exact holds.applied running channel inbox answers set (.inr ⟨first, second, rfl, rfl⟩)

/-! ## The provers' steps -/

/-- A prover answers a request with work for the same slot standing for the same chunks. -/
theorem Inv.answered (holds : Inv s) {before after sent : List (GatewayMsg P E)}
    {msg : GatewayMsg P E} {item : Nat × (Nat × Nat)} (taken : s.toWorkers = before ++ msg :: after)
    (answers : msg.work = some item) (sentWork : sent.filterMap GatewayMsg.work = [item])
    (replies : ∀ m ∈ sent, m = .requestTask ∨ (∃ res, m = .riscv (.response res)) ∨
      ∃ res, m = .combine (.response res)) :
    Inv { s with toWorkers := before ++ after, toGateway := s.toGateway ++ sent } := by
  have notFinal : ∀ m ∈ sent, m.isFinal = false := fun m member => by
    rcases replies m member with rfl | ⟨_, rfl⟩ | ⟨_, rfl⟩ <;> rfl
  have keys : (((before ++ after ++ (s.toGateway ++ sent)).filterMap GatewayMsg.work).map
      Prod.fst ++ s.fastPathSlot.toList).Perm s.workKeys := by
    refine List.perm_iff_count.mpr fun key => ?_
    simp [workKeys, work, taken, answers, sentWork, List.count_append, List.count_cons]
    omega
  have shrunk : ∀ m ∈ before ++ after, m ∈ s.toWorkers := fun m member => by
    rw [taken]
    rcases List.mem_append.mp member with old | old
    · exact List.mem_append_left _ old
    · exact List.mem_append_right _ (.tail _ old)
  have items : ∀ x ∈ (before ++ after ++ (s.toGateway ++ sent)).filterMap GatewayMsg.work,
      x ∈ s.work := by
    intro x member
    obtain ⟨m, listed, found⟩ := List.mem_filterMap.mp member
    rcases List.mem_append.mp listed with old | listed
    · exact List.mem_filterMap.mpr ⟨m, List.mem_append_left _ (shrunk m old), found⟩
    rcases List.mem_append.mp listed with old | new
    · exact List.mem_filterMap.mpr ⟨m, List.mem_append_right _ old, found⟩
    · obtain rfl : x = item := by simpa [sentWork] using List.mem_filterMap.mpr ⟨m, new, found⟩
      exact List.mem_filterMap.mpr ⟨msg, List.mem_append_left _ (by simp [taken]), answers⟩
  exact { holds with
    toWorkers := fun m member => holds.toWorkers m (shrunk m member)
    toGateway := fun m member => by
      rcases List.mem_append.mp member with old | new
      · exact holds.toGateway m old
      · rcases replies m new with task | riscv | combine
        · exact .inl task
        · exact .inr (.inl riscv)
        · exact .inr (.inr (.inl combine))
    workNodup := keys.nodup_iff.mpr holds.workNodup
    workSlot := fun x member => holds.workSlot x (items x member)
    slotWork := fun key proofs live => keys.symm.subset (holds.slotWork key proofs live)
    flaggedAlone := fun req req' member member' =>
      holds.flaggedAlone req req' (shrunk _ member) (shrunk _ member')
    unflagged := fun fast req member => holds.unflagged fast req (shrunk _ member)
    noFinals := fun none m member => by
      rcases List.mem_append.mp member with old | new
      · exact holds.noFinals none m old
      · exact notFinal m new
    finalsQueued := fun fast running => by
      obtain ⟨front, proof, back, queue, others⟩ := holds.finalsQueued fast running
      refine ⟨front, proof, back ++ sent, by simp [queue], fun m member => ?_⟩
      simp only [List.mem_append] at member
      rcases member with inFront | inBack | inSent
      · exact others m (List.mem_append_left _ inFront)
      · exact others m (List.mem_append_right _ inBack)
      · exact notFinal m inSent
    stopped := fun stop => by
      obtain ⟨fast, stored, signal, noEmbed⟩ := holds.stopped stop
      refine ⟨fast, stored, signal, fun m member proof => ?_⟩
      rcases List.mem_append.mp member with old | new
      · exact noEmbed m old proof
      · rintro rfl
        simpa using notFinal _ new }

/-- A prover finishes the request flagged complete on the fast path: the embed proof and its
`Exit` go to the gateway, and the request's slot becomes the fast path's. -/
theorem Inv.fastPath (holds : Inv s) {before after : List (GatewayMsg P E)}
    {req : CombineRequest P} {proof : E}
    (taken : s.toWorkers = before ++ .combine (.request req) :: after)
    (flagged : req.flagComplete = true) :
    Inv { s with
      toWorkers := before ++ after
      toGateway := s.toGateway ++ [.embed proof, .exit]
      fastPathSlot := some req.chunkIndex } := by
  have none : s.fastPathSlot = none := by
    cases slot : s.fastPathSlot with
    | none => rfl
    | some key => simpa [flagged] using holds.unflagged (by simp [slot]) req (by simp [taken])
  -- the work left once the request is taken
  let others := ((before ++ after ++ s.toGateway).filterMap GatewayMsg.work).map Prod.fst
  have keys : s.workKeys.Perm (req.chunkIndex :: others) := by
    refine List.perm_iff_count.mpr fun key => ?_
    simp [others, workKeys, work, taken, none, List.count_append, List.count_cons]
    omega
  have keys' : (((before ++ after ++ (s.toGateway ++ [GatewayMsg.embed proof, .exit])).filterMap
      GatewayMsg.work).map Prod.fst ++ [req.chunkIndex]).Perm (req.chunkIndex :: others) := by
    simpa [others] using List.perm_append_singleton req.chunkIndex others
  obtain ⟨alone, othersNodup⟩ := List.nodup_cons.mp (keys.nodup_iff.mp holds.workNodup)
  have shrunk : ∀ m ∈ before ++ after, m ∈ s.toWorkers := fun m member => by
    rw [taken]
    rcases List.mem_append.mp member with old | old
    · exact List.mem_append_left _ old
    · exact List.mem_append_right _ (.tail _ old)
  have items : ∀ x ∈ (before ++ after ++ (s.toGateway ++ [GatewayMsg.embed proof, .exit])).filterMap
      GatewayMsg.work, x ∈ s.work := by
    intro x member
    obtain ⟨m, listed, found⟩ := List.mem_filterMap.mp member
    rcases List.mem_append.mp listed with old | listed
    · exact List.mem_filterMap.mpr ⟨m, List.mem_append_left _ (shrunk m old), found⟩
    rcases List.mem_append.mp listed with old | new
    · exact List.mem_filterMap.mpr ⟨m, List.mem_append_right _ old, found⟩
    · simp only [List.mem_cons, List.mem_singleton, List.not_mem_nil, or_false] at new
      rcases new with rfl | rfl <;> cases found
  exact { holds with
    toWorkers := fun m member => holds.toWorkers m (shrunk m member)
    toGateway := fun m member => by
      rcases List.mem_append.mp member with old | new
      · exact holds.toGateway m old
      · simp only [List.mem_cons, List.mem_singleton, List.not_mem_nil, or_false] at new
        rcases new with rfl | rfl <;> simp
    workNodup := keys'.nodup_iff.mpr (keys.nodup_iff.mp holds.workNodup)
    workSlot := fun x member => holds.workSlot x (items x member)
    slotWork := fun key proofs live => keys'.symm.subset (keys.subset (holds.slotWork key proofs live))
    fastPathSlot := fun key fast => by
      obtain rfl : req.chunkIndex = key := Option.some.inj fast
      obtain ⟨proofs, live, -⟩ := holds.workSlot _
        (by simp only [work, taken, List.append_assoc, List.cons_append,
          GatewayMsg.mem_filterMap_work_insert, GatewayMsg.work_combineRequest, true_or] :
          (req.chunkIndex, pairRange req.chunkIndex req.proofs) ∈ s.work)
      exact ⟨proofs, live⟩
    flaggedAlone := fun req₁ req₂ member member' =>
      holds.flaggedAlone req₁ req₂ (shrunk _ member) (shrunk _ member')
    unflagged := fun _ req' member => by
      cases flagged' : req'.flagComplete
      · rfl
      · have same := holds.flaggedAlone req req' (by simp [taken]) (shrunk _ member) flagged flagged'
        refine absurd ?_ alone
        simp only [others, List.mem_map, List.mem_filterMap]
        exact ⟨_, ⟨_, List.mem_append_left _ member, rfl⟩, same.symm⟩
    noFinals := fun stuck => by simp at stuck
    finalsQueued := fun _ _ => ⟨s.toGateway, proof, [], by simp,
      fun m member => holds.noFinals none m (by simpa using member)⟩
    stopped := fun stop => absurd (holds.stopped stop).1 (by simp [none]) }

theorem Inv.prover (holds : Inv s) {combineSize : Nat} {machines : Machines P E}
    {before after sent : List (GatewayMsg P E)} {msg : GatewayMsg P E} {exits : Bool}
    (taken : s.toWorkers = before ++ msg :: after)
    (handled : Prover.handle combineSize machines msg = .ok (sent, exits)) :
    Inv { s with
      toWorkers := before ++ after
      toGateway := s.toGateway ++ sent
      fastPathSlot := if exits then fastPathOrigin msg else s.fastPathSlot } := by
  have given : msg ∈ s.toWorkers := by simp [taken]
  rcases Prover.handle_cases handled with
    ⟨req, rfl, rfl, rfl⟩ | ⟨req, res, rfl, combined, ⟨rfl, rfl⟩ | ⟨flagged, proof, rfl, rfl⟩⟩ |
      ⟨rfl, -, -⟩
  · exact holds.answered taken rfl rfl (by simp)
  · obtain ⟨first, second, rest, proofs, -, index, range⟩ := Prover.combine_ok combined
    have pair : req.proofs = [first, second] := by
      rcases holds.toWorkers _ given with ⟨_, stuck⟩ | ⟨_, first', second', same, pair, -⟩
      · cases stuck
      · cases same
        rw [proofs] at pair ⊢
        simp_all
    simp only [IndexedProof.range_eq, Prod.mk.injEq] at range
    exact holds.answered taken rfl (by simp [index, range, pair]) (by simp)
  · exact holds.fastPath taken flagged
  · rcases holds.toWorkers _ given with ⟨_, stuck⟩ | ⟨_, _, _, stuck, -⟩ <;> cases stuck

section Run

variable {total combineSize : Nat} {machines : Machines P E} {s' : Pipeline P E}

theorem Inv.step (holds : Inv s) (step : Step total combineSize machines s s') : Inv s' := by
  cases step with
  | emit => exact holds.emit
  | emulatorComplete => exact holds.emulatorComplete
  | gatewayEmulator running channel handled => exact holds.gatewayEmulator running channel handled
  | gatewayWorker running channel inbox handled =>
    exact holds.gatewayWorker running channel inbox handled
  | prover taken handled => exact holds.prover taken handled

/-- Every state a run reaches keeps the invariant. -/
theorem reachable_inv (reachable : Reachable total combineSize machines s) : Inv s := by
  induction reachable with
  | init => exact inv_init
  | step _ step holds => exact holds.step step

end Run

end Steps

end Pipeline

end ProvingService
