import ProvingService.Pipeline.Termination

/-!
# The prover threads

`prove_task` spawns `prover_count` provers. Each sends `RequestTask` when it starts, then takes
messages from the shared channel until it handles `Exit` or ends on the fast path, and leaves
its loop. The pipeline of `Pipeline/System.lean` lets any prover take any message, and leaves
out the first `RequestTask`s, which the gateway reads and ignores. This module adds the threads
and shows that the pipeline simulates them: every state the threads reach stands for a state
the pipeline reaches, once the phases of the provers are forgotten and the first `RequestTask`s
not yet read are taken out of the gateway's channel. What is proved of the pipeline's reachable
states therefore holds of the threads, and, since the steps the pipeline does not take lower a
rank of their own, every run of the threads ends.
-/

set_option autoImplicit false

namespace ProvingService.Pipeline

variable {P E : Type}

/-- Where a prover thread is. -/
inductive ProverPhase where
  /-- Spawned, its first `RequestTask` not sent yet. -/
  | starting
  /-- In its loop. -/
  | running
  /-- Out of its loop, after `Exit` or the fast path. -/
  | exited
  deriving DecidableEq, Repr

/-- The pipeline with its prover threads. -/
structure Threads (P E : Type) where
  pipeline : Pipeline P E
  provers : List ProverPhase

/-- Whether a turn is a prover's. -/
def Turn.isProver : Turn → Bool
  | .prover _ => true
  | _ => false

namespace Threads

/-- `prove_task` with `proverCount` provers spawned. -/
def init (proverCount : Nat) : Threads P E := ⟨Pipeline.init, List.replicate proverCount .starting⟩

/-- `prove_task` up to its threads, `none` where it panics. It creates the provers one by one,
and for a task that asks for a GPU it calls `Prover::new_cuda`, which is `unimplemented!()`.
Then `emulator::run` reads the task's inputs with `bincode::deserialize(..).unwrap()`;
`decodes` says whether `bincode` reads them. -/
def spawn (proverCount : Nat) (useGpu : Bool) (inputs : Option (List UInt8))
    (decodes : List UInt8 → Bool) : Option (Threads P E) :=
  if useGpu && 0 < proverCount then none
  else if inputs.all decodes then some (init proverCount)
  else none

theorem spawn_eq_some {proverCount : Nat} {useGpu : Bool} {inputs : Option (List UInt8)}
    {decodes : List UInt8 → Bool} {t : Threads P E} :
    spawn proverCount useGpu inputs decodes = some t ↔
      (useGpu = false ∨ proverCount = 0) ∧ (∀ bytes ∈ inputs, decodes bytes = true) ∧
        t = init proverCount := by
  unfold spawn
  have same : some (init proverCount : Threads P E) = some t ↔ t = init proverCount :=
    Option.some_inj.trans eq_comm
  cases useGpu <;> cases inputs <;> simp [Nat.pos_iff_ne_zero, same]

section Steps

variable (total combineSize : Nat) (machines : Machines P E)

/-- One atomic step of one thread. -/
inductive Step : Threads P E → Threads P E → Prop
  /-- The emulator or the gateway moves, as its turn in the pipeline. -/
  | coordinator {t : Threads P E} {next : Turn} {s : Pipeline P E} :
      next.isProver = false → turn total combineSize machines t.pipeline next = some s →
      Step t { t with pipeline := s }
  /-- A prover starts and sends `RequestTask`. -/
  | start {t : Threads P E} {front back : List ProverPhase} :
      t.provers = front ++ .starting :: back →
      Step t ⟨{ t.pipeline with toGateway := t.pipeline.toGateway ++ [.requestTask] },
        front ++ .running :: back⟩
  /-- A prover in its loop takes a message; `Exit` and the fast path end the loop. -/
  | prover {t : Threads P E} {front back : List ProverPhase}
      {before after : List (GatewayMsg P E)} {msg : GatewayMsg P E}
      {sent : List (GatewayMsg P E)} {exits : Bool} :
      t.provers = front ++ .running :: back → t.pipeline.toWorkers = before ++ msg :: after →
      Prover.handle combineSize machines msg = .ok (sent, exits) →
      Step t ⟨{ t.pipeline with
          toWorkers := before ++ after
          toGateway := t.pipeline.toGateway ++ sent
          fastPathSlot := if exits then fastPathOrigin msg else t.pipeline.fastPathSlot },
        front ++ (if exits then .exited else .running) :: back⟩

/-- The states the threads reach from the spawn of `proverCount` provers. -/
def Reachable (proverCount : Nat) (t : Threads P E) : Prop :=
  Relation.ReflTransGen (Step total combineSize machines) (init proverCount) t

/-- Which thread moves: the emulator or the gateway, as a turn of the pipeline, a prover
starting, or a prover in its loop, with the position of the message it takes. -/
inductive Move where
  | coordinator (next : Pipeline.Turn)
  | start (prover : Nat)
  | prover (prover message : Nat)

/-- The step a move takes, if that thread can make it: an executable reading of `Step`. -/
def move (t : Threads P E) : Move → Option (Threads P E)
  | .coordinator next =>
    if next.isProver then none
    else (Pipeline.turn total combineSize machines t.pipeline next).map fun s => { t with pipeline := s }
  | .start prover =>
    match t.provers.drop prover with
    | .starting :: back =>
      some ⟨{ t.pipeline with toGateway := t.pipeline.toGateway ++ [.requestTask] },
        t.provers.take prover ++ .running :: back⟩
    | _ => none
  | .prover prover message =>
    match t.provers.drop prover, t.pipeline.toWorkers.drop message with
    | .running :: back, msg :: after =>
      match Prover.handle combineSize machines msg with
      | .ok (sent, exits) =>
        some ⟨{ t.pipeline with
            toWorkers := t.pipeline.toWorkers.take message ++ after
            toGateway := t.pipeline.toGateway ++ sent
            fastPathSlot := if exits then fastPathOrigin msg else t.pipeline.fastPathSlot },
          t.provers.take prover ++ (if exits then .exited else .running) :: back⟩
      | .error _ => none
    | _, _ => none

/-- Makes the moves in order; `none` once a thread named cannot move. -/
def runMoves : Threads P E → List Move → Option (Threads P E)
  | t, [] => some t
  | t, next :: moves => (move total combineSize machines t next).bind fun t' => runMoves t' moves

theorem move_step {t t' : Threads P E} {next : Move}
    (moved : move total combineSize machines t next = some t') : Step total combineSize machines t t' := by
  cases next with
  | coordinator next =>
    simp only [move] at moved
    split_ifs at moved with isProver
    obtain ⟨s, turned, rfl⟩ := Option.map_eq_some'.mp moved
    exact .coordinator (by simpa using isProver) turned
  | start prover =>
    simp only [move] at moved
    split at moved
    · rename_i back dropped
      cases moved
      exact .start (by rw [← dropped, List.take_append_drop])
    · cases moved
  | prover prover message =>
    simp only [move] at moved
    split at moved
    · rename_i back msg after phases queued
      split at moved
      · rename_i sent exits handled
        cases moved
        exact .prover (by rw [← phases, List.take_append_drop])
          (by rw [← queued, List.take_append_drop]) handled
      · cases moved
    · cases moved

/-- A run of moves is a counted run of the threads. -/
theorem counted_of_runMoves : ∀ {t t' : Threads P E} {moves : List Move},
    runMoves total combineSize machines t moves = some t' →
      Counted (Step total combineSize machines) moves.length t t'
  | _, _, [], ran => by
    cases ran
    exact .refl
  | _, _, _ :: _, ran => by
    obtain ⟨_, moved, rest⟩ := Option.bind_eq_some.mp ran
    exact .head (move_step total combineSize machines moved) (counted_of_runMoves rest)

end Steps

end Threads

/-! ## The pipeline a threads state stands for -/

/-- The gateway's channel in the threads, and in the pipeline: the same, but for first
`RequestTask`s of provers, which the pipeline leaves out. -/
inductive ExtraRequests : List (GatewayMsg P E) → List (GatewayMsg P E) → Prop
  | nil : ExtraRequests [] []
  | keep {threads queue : List (GatewayMsg P E)} (msg : GatewayMsg P E) :
      ExtraRequests threads queue → ExtraRequests (msg :: threads) (msg :: queue)
  | extra {threads queue : List (GatewayMsg P E)} :
      ExtraRequests threads queue → ExtraRequests (.requestTask :: threads) queue

namespace ExtraRequests

variable {threads queue : List (GatewayMsg P E)}

theorem refl : ∀ queue : List (GatewayMsg P E), ExtraRequests queue queue
  | [] => .nil
  | msg :: queue => .keep msg (refl queue)

theorem append (sent : List (GatewayMsg P E)) (extras : ExtraRequests threads queue) :
    ExtraRequests (threads ++ sent) (queue ++ sent) := by
  induction extras with
  | nil => exact refl sent
  | keep msg _ ih => exact .keep msg ih
  | extra _ ih => exact .extra ih

theorem append_request (extras : ExtraRequests threads queue) :
    ExtraRequests (threads ++ [.requestTask]) queue := by
  induction extras with
  | nil => exact .extra .nil
  | keep msg _ ih => exact .keep msg ih
  | extra _ ih => exact .extra ih

theorem length_le (extras : ExtraRequests threads queue) : queue.length ≤ threads.length := by
  induction extras with
  | nil => exact le_refl _
  | keep _ _ ih => exact Nat.succ_le_succ ih
  | extra _ ih => exact Nat.le_succ_of_le ih

/-- The message at the front of the threads' channel is the pipeline's, or a first
`RequestTask`. -/
theorem cons_cases {msg : GatewayMsg P E} (extras : ExtraRequests (msg :: threads) queue) :
    (∃ rest, queue = msg :: rest ∧ ExtraRequests threads rest) ∨
      (msg = .requestTask ∧ ExtraRequests threads queue) := by
  cases extras with
  | keep _ rest => exact .inl ⟨_, rfl, rest⟩
  | extra rest => exact .inr ⟨rfl, rest⟩

end ExtraRequests

/-- The pipeline a threads state stands for: the same state, with the gateway's channel
without the first `RequestTask`s not yet read. -/
def Abstracts (t : Threads P E) (s : Pipeline P E) : Prop :=
  ∃ queue, ExtraRequests t.pipeline.toGateway queue ∧ s = { t.pipeline with toGateway := queue }

/-- The steps the threads can still take that the pipeline does not: each starting prover's
`RequestTask`, sent and read, and each such request sent and not yet read. -/
def rank (t : Threads P E) (s : Pipeline P E) : Nat :=
  2 * t.provers.count .starting + (t.pipeline.toGateway.length - s.toGateway.length)

/-! ## One step -/

section Frame

variable {total combineSize : Nat} {machines : Machines P E}

@[simp] theorem afterGateway_toGateway (s : Pipeline P E) (h : GatewayHandler P E)
    (act : GatewayAction P E) : (s.afterGateway h act).toGateway = s.toGateway := by
  cases act <;> rfl

@[simp] theorem afterGateway_fastPathSlot (s : Pipeline P E) (h : GatewayHandler P E)
    (act : GatewayAction P E) : (s.afterGateway h act).fastPathSlot = s.fastPathSlot := by
  cases act <;> rfl

/-- The emulator and the gateway's emulator arm neither read nor write the gateway's other
channel. -/
theorem turn_toGateway {next : Turn} (s : Pipeline P E) (queue : List (GatewayMsg P E))
    (notWorker : next ≠ .gatewayWorker) (notProver : next.isProver = false) :
    turn total combineSize machines { s with toGateway := queue } next =
      (turn total combineSize machines s next).map ({ · with toGateway := queue }) := by
  cases next with
  | emulator =>
    simp only [turn]
    split_ifs <;> rfl
  | gatewayEmulator =>
    simp only [turn]
    split
    · split
      · rename_i act _
        cases act <;> rfl
      · rfl
    · rfl
  | gatewayWorker => exact absurd rfl notWorker
  | prover _ => cases notProver

theorem turn_toGateway_eq {next : Turn} {s s' : Pipeline P E} (notWorker : next ≠ .gatewayWorker)
    (notProver : next.isProver = false) (moved : turn total combineSize machines s next = some s') :
    s'.toGateway = s.toGateway := by
  have framed := @turn_toGateway P E total combineSize machines next s s.toGateway notWorker notProver
  rw [moved] at framed
  have same := congrArg Pipeline.toGateway (Option.some.inj framed)
  exact same

/-- The gateway's arm for the provers' channel, taking the message in front. -/
theorem turn_gatewayWorker {s s' : Pipeline P E}
    (moved : turn total combineSize machines s .gatewayWorker = some s') :
    ∃ msg rest h act, s.gatewayRunning = true ∧ s.emulatorChannel = [] ∧ s.toGateway = msg :: rest ∧
      GatewayLoop.onWorkerMsg s.handler msg = .ok (h, act) ∧
      s' = { s with toGateway := rest }.afterGateway h act := by
  simp only [turn] at moved
  split at moved
  · rename_i msg rest running channel inbox
    split at moved
    · rename_i h act handled
      cases moved
      exact ⟨msg, rest, h, act, running, channel, inbox, handled, rfl⟩
    · cases moved
  · cases moved

/-- The emulator's arm never ends the gateway's loop with the completion signal. -/
theorem onEmulatorMsg_act {h h' : GatewayHandler P E} {msg : GatewayMsg P E} {act : GatewayAction P E}
    (handled : GatewayLoop.onEmulatorMsg h msg = .ok (h', act)) :
    act = .send msg ∨ act = .idle ∨ act = .stop := by
  match msg, handled with
  | .riscv (.request req), handled =>
    simp only [GatewayLoop.onEmulatorMsg, bind, Except.bind] at handled
    split at handled
    · cases handled
    · split at handled
      · cases handled
      · cases handled
        exact .inl rfl
  | .emulatorComplete, handled =>
    simp only [GatewayLoop.onEmulatorMsg, bind, Except.bind] at handled
    split at handled
    · cases handled
    · split at handled <;> cases handled
      · exact .inr (.inr rfl)
      · exact .inr (.inl rfl)
  | .riscv (.response _), handled | .combine _, handled | .requestTask, handled
  | .embed _, handled | .close, handled | .exit, handled => cases handled

/-- The emulator's turns and the gateway's emulator arm leave the completion signal alone. -/
theorem turn_completion {next : Turn} {s s' : Pipeline P E} (notWorker : next ≠ .gatewayWorker)
    (notProver : next.isProver = false) (moved : turn total combineSize machines s next = some s') :
    s'.completion = s.completion := by
  cases next with
  | emulator =>
    simp only [turn] at moved
    split_ifs at moved <;> cases moved <;> rfl
  | gatewayEmulator =>
    simp only [turn] at moved
    split at moved
    · split at moved
      · rename_i act handled
        cases moved
        rcases onEmulatorMsg_act handled with rfl | rfl | rfl <;> rfl
      · cases moved
    · cases moved
  | gatewayWorker => exact absurd rfl notWorker
  | prover _ => cases notProver

/-- Only a prover's turn records the fast path. -/
theorem turn_fastPathSlot {next : Turn} {s s' : Pipeline P E} (notProver : next.isProver = false)
    (moved : turn total combineSize machines s next = some s') : s'.fastPathSlot = s.fastPathSlot := by
  cases next with
  | emulator =>
    simp only [turn] at moved
    split_ifs at moved <;> cases moved <;> rfl
  | gatewayEmulator | gatewayWorker =>
    simp only [turn] at moved
    repeat' split at moved
    all_goals cases moved
    all_goals simp
  | prover _ => cases notProver

end Frame

/-! ## The simulation -/

section Simulation

variable {total combineSize : Nat} {machines : Machines P E} {t t' : Threads P E} {s : Pipeline P E}

theorem Abstracts.completion (abstracts : Abstracts t s) : t.pipeline.completion = s.completion := by
  obtain ⟨queue, -, rfl⟩ := abstracts
  rfl

/-- A step of the threads is a step of the pipeline, or a step the pipeline does not take,
which lowers the rank. -/
theorem Abstracts.step (abstracts : Abstracts t s)
    (step : Threads.Step total combineSize machines t t') :
    (Abstracts t' s ∧ rank t' s < rank t s) ∨
      ∃ s', Step total combineSize machines s s' ∧ Abstracts t' s' ∧ rank t' s' ≤ rank t s := by
  obtain ⟨queue, extras, rfl⟩ := abstracts
  have shorter := extras.length_le
  cases step with
  | @coordinator next stepped notProver turned =>
    by_cases worker : next = .gatewayWorker
    · subst worker
      obtain ⟨msg, rest, h, act, running, channel, inbox, handled, rfl⟩ := turn_gatewayWorker turned
      rw [inbox] at extras shorter
      rcases extras.cons_cases with ⟨rest', rfl, extras'⟩ | ⟨rfl, extras'⟩
      · refine .inr ⟨_, .gatewayWorker running channel rfl handled, ⟨rest', ?_, ?_⟩, ?_⟩
        · simpa using extras'
        · cases act <;> rfl
        · simp [rank, inbox]
      · cases handled
        refine .inl ⟨⟨queue, by simpa using extras', rfl⟩, ?_⟩
        simp only [rank, inbox, afterGateway, List.length_cons] at shorter ⊢
        have := extras'.length_le
        omega
    · have same := turn_toGateway_eq worker notProver turned
      refine .inr ⟨{ stepped with toGateway := queue }, @turn_step P E total combineSize machines _ _ next ?_,
        ⟨queue, same ▸ extras, rfl⟩, by simp [rank, same]⟩
      rw [turn_toGateway _ _ worker notProver, turned]
      rfl
  | start split =>
    refine .inl ⟨⟨queue, extras.append_request, rfl⟩, ?_⟩
    simp only [rank, split, List.count_append, List.count_cons, List.length_append, List.length_singleton]
    simp
    omega
  | prover split taken handled =>
    rename_i front back before after msg sent exits
    refine .inr ⟨_, .prover taken handled, ⟨queue ++ sent, extras.append sent, rfl⟩, ?_⟩
    simp only [rank, split, List.count_append, List.count_cons, List.length_append]
    cases exits <;> simp <;> omega

theorem abstracts_init (proverCount : Nat) :
    Abstracts (Threads.init proverCount : Threads P E) init ∧
      rank (Threads.init proverCount : Threads P E) init = 2 * proverCount := by
  refine ⟨⟨[], .nil, rfl⟩, ?_⟩
  simp [rank, Threads.init, init, List.count_replicate]

/-- A run of the threads is a run of the pipeline, and at most the rank's steps more. -/
theorem Counted.abstracts {steps : Nat} {start : Threads P E} {origin : Pipeline P E}
    (abstracts : Abstracts start origin)
    (run : Counted (Threads.Step total combineSize machines) steps start t) :
    ∃ s pipelineSteps, Counted (Step total combineSize machines) pipelineSteps origin s ∧
      Abstracts t s ∧ steps + rank t s ≤ pipelineSteps + rank start origin := by
  induction run with
  | refl => exact ⟨origin, 0, .refl, abstracts, le_refl _⟩
  | tail _ step ih =>
    obtain ⟨s, pipelineSteps, run, related, counted⟩ := ih abstracts
    rcases related.step step with ⟨related', lower⟩ | ⟨s', moved, related', lower⟩
    · exact ⟨s, pipelineSteps, run, related', by omega⟩
    · exact ⟨s', pipelineSteps + 1, run.tail moved, related', by omega⟩

/-- What the provers' phases keep: `prover_count` of them were spawned, and one is out of its
loop exactly once a prover has ended on the fast path, since the gateway never sends `Exit`. -/
structure Threads.Phases (proverCount : Nat) (t : Threads P E) : Prop where
  spawned : t.provers.length = proverCount
  exitedCount : t.provers.count .exited = if t.pipeline.fastPathSlot.isSome then 1 else 0

theorem Threads.Phases.exited {proverCount : Nat} (phases : Threads.Phases proverCount t)
    (out : .exited ∈ t.provers) : t.pipeline.fastPathSlot.isSome := by
  have counted := phases.exitedCount
  have positive := List.count_pos_iff.mpr out
  split at counted <;> simp_all

theorem Threads.Phases.single {proverCount : Nat} (phases : Threads.Phases proverCount t) :
    t.provers.count .exited ≤ 1 := by
  rw [phases.exitedCount]
  split <;> omega

/-- A prover entering its loop, or staying in it, keeps the phases. -/
theorem Threads.Phases.enter {proverCount : Nat} {front back : List ProverPhase} {phase : ProverPhase}
    (phases : Threads.Phases proverCount t) (split : t.provers = front ++ phase :: back)
    (staying : phase ≠ .exited) (provers : t'.provers = front ++ .running :: back)
    (slot : t'.pipeline.fastPathSlot = t.pipeline.fastPathSlot) : Threads.Phases proverCount t' := by
  have ⟨spawned, exitedCount⟩ := phases
  rw [split] at spawned exitedCount
  refine ⟨by simpa [provers] using spawned, ?_⟩
  rw [slot, ← exitedCount]
  simp [provers, List.count_cons, staying]

theorem Threads.Phases.step {proverCount : Nat} (phases : Threads.Phases proverCount t)
    (abstracts : Abstracts t s) (holds : Inv s) (step : Threads.Step total combineSize machines t t') :
    Threads.Phases proverCount t' := by
  obtain ⟨queue, -, rfl⟩ := abstracts
  cases step with
  | coordinator notProver turned =>
    exact ⟨phases.spawned, (turn_fastPathSlot notProver turned) ▸ phases.exitedCount⟩
  | start split => exact phases.enter split nofun rfl rfl
  | @prover front back before after msg sent exits split taken handled =>
    cases exits with
    | false => exact phases.enter split nofun rfl rfl
    | true =>
      rcases Prover.handle_cases handled with
        ⟨-, -, -, stays⟩ | ⟨req, -, rfl, -, ⟨-, stays⟩ | ⟨flagged, -⟩⟩ | ⟨rfl, -⟩
      · cases stays
      · cases stays
      · have noSlot : t.pipeline.fastPathSlot = none := by
          cases slot : t.pipeline.fastPathSlot with
          | none => rfl
          | some key =>
            have unflagged := holds.unflagged (by simp [slot]) req (by simp [taken])
            rw [flagged] at unflagged
            cases unflagged
        have ⟨spawned, first⟩ := phases
        rw [split, noSlot] at first
        rw [split] at spawned
        refine ⟨by simpa using spawned, ?_⟩
        simp [List.count_cons, fastPathOrigin] at first ⊢
        omega
      · have given := holds.toWorkers .exit (by simp [taken])
        simp at given

/-- Every state the threads reach stands for a state the pipeline reaches, and keeps its
provers' phases. -/
theorem Threads.Reachable.refines {proverCount : Nat}
    (reachable : Threads.Reachable total combineSize machines proverCount t) :
    ∃ s, Pipeline.Reachable total combineSize machines s ∧ Abstracts t s ∧
      Threads.Phases proverCount t := by
  induction reachable with
  | refl =>
    refine ⟨Pipeline.init, .init, (abstracts_init proverCount).1, by simp [Threads.init], ?_⟩
    simp [Threads.init, Pipeline.init, List.count_replicate]
  | tail _ step ih =>
    obtain ⟨s, reached, related, phases⟩ := ih
    have phases' := phases.step related (reachable_inv reached) step
    rcases related.step step with ⟨related', -⟩ | ⟨s', moved, related', -⟩
    · exact ⟨s, reached, related', phases'⟩
    · exact ⟨s', reached.step moved, related', phases'⟩

/-- What the threads can still do: the pipeline's potential, counting the first `RequestTask`s
in the gateway's channel, and a start and a read for each prover not started. -/
def Threads.weight (total : Nat) (t : Threads P E) : Nat :=
  potential total t.pipeline + 2 * t.provers.count .starting

theorem Abstracts.weight_eq (abstracts : Abstracts t s) :
    potential total s + rank t s = Threads.weight total t := by
  obtain ⟨queue, extras, rfl⟩ := abstracts
  have shorter := extras.length_le
  have entries : { t.pipeline with toGateway := queue }.entries = t.pipeline.entries := rfl
  simp only [potential, rank, Threads.weight, entries]
  omega

theorem Threads.weight_init (proverCount : Nat) :
    Threads.weight total (Threads.init proverCount : Threads P E) = 8 * total + 2 + 2 * proverCount := by
  simp [Threads.weight, Threads.init, potential_init, List.count_replicate]

/-- Every step of the threads from a state they reach lowers their weight. -/
theorem Threads.Reachable.weight_lt {proverCount : Nat}
    (reachable : Threads.Reachable total combineSize machines proverCount t)
    (step : Threads.Step total combineSize machines t t') :
    Threads.weight total t' < Threads.weight total t := by
  obtain ⟨s, reached, abstracts, -⟩ := reachable.refines
  rw [← abstracts.weight_eq]
  rcases abstracts.step step with ⟨related, lower⟩ | ⟨s', moved, related, lower⟩
  · rw [← related.weight_eq]
    omega
  · have dropped := (reachable_inv reached).potential_lt moved
    rw [← related.weight_eq]
    omega

/-- One prover and two chunks, from the spawn to the end: the prover starts, takes both chunk
requests, then the merge flagged complete, on which it leaves its loop down the fast path, and
the gateway ends on its `Exit`. -/
def twoChunkThreadMoves : List Threads.Move :=
  [.start 0, .coordinator .emulator, .coordinator .emulator, .coordinator .emulator,
    .coordinator .gatewayEmulator, .coordinator .gatewayEmulator, .coordinator .gatewayEmulator,
    .prover 0 0, .prover 0 0, .coordinator .gatewayWorker, .coordinator .gatewayWorker,
    .coordinator .gatewayWorker, .coordinator .gatewayWorker, .coordinator .gatewayWorker,
    .prover 0 0, .coordinator .gatewayWorker]

/-- The run of two chunks and one prover ends with the prover out of its loop and the
signal fired. -/
theorem twoChunkThreadMoves_run :
    ∃ t : Threads (Nat × Nat) (Nat × Nat),
      Threads.runMoves 2 2 Machines.ranges (Threads.init 1) twoChunkThreadMoves = some t ∧
      t.provers = [.exited] ∧ t.pipeline.fastPathSlot = some 1 ∧
      t.pipeline.completion = some (some (0, 1)) :=
  ⟨_, rfl, rfl, rfl, rfl⟩

/-- Every state the threads reach stands for a state the pipeline reaches: the emulator, the
gateway, the provers' channel and the completion signal are the pipeline's, and the gateway's
channel is the pipeline's with first `RequestTask`s of provers in it. Whatever is proved of the
pipeline's reachable states holds of the threads. -/
theorem threads_refine_pipeline {proverCount : Nat}
    (reachable : Threads.Reachable total combineSize machines proverCount t) :
    ∃ s, Reachable total combineSize machines s ∧ Abstracts t s := by
  obtain ⟨s, reached, related, -⟩ := reachable.refines
  exact ⟨s, reached, related⟩

/-- The run of two chunks and one prover, at its end. -/
theorem threads_refine_pipeline_two_chunks :
    ∃ t : Threads (Nat × Nat) (Nat × Nat),
      Threads.runMoves 2 2 Machines.ranges (Threads.init 1) twoChunkThreadMoves = some t ∧
      t.pipeline.completion = some (some (0, 1)) ∧
      ∃ s, Reachable 2 2 Machines.ranges s ∧ Abstracts t s := by
  obtain ⟨t, run, -, -, fired⟩ := twoChunkThreadMoves_run
  exact ⟨t, run, fired,
    threads_refine_pipeline (Threads.counted_of_runMoves 2 2 Machines.ranges run).reflTransGen⟩

/-- Exactly one prover leaves its loop, and only on the fast path: every other prover stays in
its loop. The gateway sends `Exit` to no prover, and once a prover has taken the fast path no
request flagged complete is left for the others. A closed channel also ends a loop; the model
leaves closing out, since `prove_task` holds both channels until it returns. -/
theorem one_prover_leaves_loop {proverCount : Nat}
    (reachable : Threads.Reachable total combineSize machines proverCount t) :
    t.provers.count .exited = (if t.pipeline.fastPathSlot.isSome then 1 else 0) ∧
      GatewayMsg.exit ∉ t.pipeline.toWorkers := by
  obtain ⟨s, reached, ⟨queue, -, rfl⟩, phases⟩ := reachable.refines
  refine ⟨phases.exitedCount, fun sent => ?_⟩
  have given := (reachable_inv reached).toWorkers .exit sent
  simp at given

/-- The run of two chunks and one prover: the prover has left its loop on the fast path. -/
theorem one_prover_leaves_loop_fast_path :
    ∃ t : Threads (Nat × Nat) (Nat × Nat),
      Threads.runMoves 2 2 Machines.ranges (Threads.init 1) twoChunkThreadMoves = some t ∧
      t.provers = [.exited] ∧ t.pipeline.fastPathSlot = some 1 ∧
      t.provers.count .exited = (if t.pipeline.fastPathSlot.isSome then 1 else 0) ∧
      GatewayMsg.exit ∉ t.pipeline.toWorkers := by
  obtain ⟨t, run, exited, slot, -⟩ := twoChunkThreadMoves_run
  exact ⟨t, run, exited, slot,
    one_prover_leaves_loop (Threads.counted_of_runMoves 2 2 Machines.ranges run).reflTransGen⟩

/-- Whatever the machines and however the threads interleave, a run of `prove_task` with
`proverCount` provers takes at most `8 * total + 2 + 2 * proverCount` steps. -/
theorem threads_run_length_le {steps proverCount : Nat}
    (run : Counted (Threads.Step total combineSize machines) steps (Threads.init proverCount) t) :
    steps ≤ 8 * total + 2 + 2 * proverCount := by
  obtain ⟨abstracts, ranked⟩ := abstracts_init (P := P) (E := E) proverCount
  obtain ⟨s, pipelineSteps, pipelineRun, -, counted⟩ := run.abstracts abstracts
  have bounded := (pipelineRun.potential_add .init).2
  rw [potential_init] at bounded
  rw [ranked] at counted
  omega

/-- The run of two chunks and one prover, counted against the bound. -/
theorem threads_run_length_le_two_chunks :
    ∃ t : Threads (Nat × Nat) (Nat × Nat),
      Threads.runMoves 2 2 Machines.ranges (Threads.init 1) twoChunkThreadMoves = some t ∧
      t.provers = [.exited] ∧ t.pipeline.completion = some (some (0, 1)) ∧
      twoChunkThreadMoves.length ≤ 8 * 2 + 2 + 2 * 1 := by
  obtain ⟨t, run, exited, -, fired⟩ := twoChunkThreadMoves_run
  exact ⟨t, run, exited, fired,
    threads_run_length_le (Threads.counted_of_runMoves 2 2 Machines.ranges run)⟩

end Simulation

/-! ## No provers -/

section NoProvers

variable {total combineSize : Nat} {machines : Machines P E} {t : Threads P E}

/-- With no prover spawned (`prover_count` 0, which `ServiceConfig` accepts), no answer ever
reaches the gateway, and the completion signal never fires: `prove_task` awaits it forever. -/
theorem no_provers_never_completes (reachable : Threads.Reachable total combineSize machines 0 t) :
    t.pipeline.completion = none := by
  suffices quiet : t.provers = [] ∧ t.pipeline.toGateway = [] ∧ t.pipeline.completion = none from
    quiet.2.2
  induction reachable with
  | refl => exact ⟨rfl, rfl, rfl⟩
  | tail _ step ih =>
    obtain ⟨idle, empty, silent⟩ := ih
    cases step with
    | @coordinator next stepped notProver turned =>
      by_cases worker : next = .gatewayWorker
      · subst worker
        obtain ⟨msg, rest, -, -, -, -, inbox, -, -⟩ := turn_gatewayWorker turned
        rw [empty] at inbox
        cases inbox
      · exact ⟨idle, (turn_toGateway_eq worker notProver turned).trans empty,
          (turn_completion worker notProver turned).trans silent⟩
    | start split | prover split =>
      rw [idle] at split
      simp at split

/-- No prover, and the emulator has sent its one chunk. -/
theorem no_provers_never_completes_emitted :
    ∃ t : Threads (Nat × Nat) (Nat × Nat), Threads.Reachable 1 2 Machines.ranges 0 t ∧
      t.pipeline.emitted = 1 ∧ t.pipeline.completion = none := by
  have reachable : Threads.Reachable 1 2 Machines.ranges 0 _ :=
    .single (@Threads.Step.coordinator _ _ 1 2 Machines.ranges (Threads.init 0) .emulator _ rfl rfl)
  exact ⟨_, reachable, rfl, no_provers_never_completes reachable⟩

end NoProvers

end ProvingService.Pipeline
