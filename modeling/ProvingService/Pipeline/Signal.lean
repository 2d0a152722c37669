import ProvingService.Pipeline.Threads
import ProvingService.Pipeline.Completion

/-!
# The completion signal

`prove_task` awaits the completion signal. The gateway fires it once, as it leaves its loop, and
nothing changes it after. A state of the threads in which no thread can move
has fired it, once there are two chunks or more, a prover, and embed proofs that verify: a
prover spawned can start, the emulator can go on until `EmulatorComplete`, the gateway can read
whatever is queued for it, a prover in its loop can take whatever is queued for the provers, and
with all of that done the proof tree would be one proof spanning every chunk, which a run of two
chunks never stores. With every run of the threads ending (`Pipeline/Threads.lean`), the signal
fires on every run, however the threads interleave.
-/

set_option autoImplicit false

namespace ProvingService.Pipeline

variable {P E : Type}

/-- `goal` is reached on every run from a state, whatever the scheduler does: it holds, or the
state can move and every move leads to a state from which it is reached. No run avoids it, by
stopping short of it or by going on forever. -/
inductive Inevitably {α : Type} (r : α → α → Prop) (goal : α → Prop) : α → Prop
  | now {a : α} : goal a → Inevitably r goal a
  | later {a b : α} : r a b → (∀ c, r a c → Inevitably r goal c) → Inevitably r goal a

theorem Inevitably.mono {α : Type} {r : α → α → Prop} {goal goal' : α → Prop}
    (weaker : ∀ a, goal a → goal' a) {a : α} (inevitable : Inevitably r goal a) :
    Inevitably r goal' a := by
  induction inevitable with
  | now reached => exact .now (weaker _ reached)
  | later moved _ ih => exact .later moved ih

/-- What every move keeps holds where the goal is reached. -/
theorem Inevitably.and_invariant {α : Type} {r : α → α → Prop} {goal inv : α → Prop}
    (kept : ∀ a b, r a b → inv a → inv b) {a : α} (inevitable : Inevitably r goal a) (holds : inv a) :
    Inevitably r (fun a => goal a ∧ inv a) a := by
  induction inevitable with
  | now reached => exact .now ⟨reached, holds⟩
  | later moved _ ih => exact .later moved fun c step => ih c step (kept _ _ step holds)

/-- The gateway has taken its `Exit` arm on the stored embed proof. -/
def Completed (s : Pipeline P E) : Prop :=
  s.handler.complete = true ∧ s.completion = some s.handler.embedProof

/-- Once the gateway has taken its `Exit` arm, a ready gnark setup sends bytes through the
completion signal. -/
theorem Completed.signal_ok {s : Pipeline P E} (completed : Completed s) {gnark : Onchain.Gnark E}
    (ready : gnark.Ready) : ∃ bytes, s.signal gnark = some (.ok bytes) := by
  obtain ⟨bytes, sent⟩ := (Onchain.exitArm_ok_iff gnark s.handler.embedProof).mpr
    fun proof _ => ready.returns proof
  exact ⟨bytes, by rw [signal, completed.2, Option.map_some', sent]⟩

section Stuck

variable {total combineSize proverCount : Nat} {machines : Machines P E} {t : Threads P E}
  {queue : List (GatewayMsg P E)}

/-- A prover spawned can always start. -/
theorem Threads.stuck_started (stuck : ∀ t', ¬ Threads.Step total combineSize machines t t') :
    .starting ∉ t.provers := fun spawned => by
  obtain ⟨front, back, split⟩ := List.append_of_mem spawned
  exact stuck _ (.start split)

/-- The emulator can always move until it has sent `EmulatorComplete`. -/
theorem Threads.stuck_emulatorDone (bounded : t.pipeline.emitted ≤ total)
    (stuck : ∀ t', ¬ Threads.Step total combineSize machines t t') : t.pipeline.emulatorDone = true := by
  cases done : t.pipeline.emulatorDone with
  | true => rfl
  | false =>
    obtain ⟨s', moved⟩ : ∃ s', turn total combineSize machines t.pipeline .emulator = some s' := by
      simp only [turn, done, Bool.false_eq_true, if_false]
      split_ifs <;> first | exact ⟨_, rfl⟩ | omega
    exact (stuck _ (@Threads.Step.coordinator _ _ total combineSize machines t .emulator s' rfl moved)).elim

/-- A gateway that runs can read whatever is queued for it: a message of the pipeline passes its
checks, and a prover's first `RequestTask` is ignored. -/
theorem Threads.stuck_drained (extras : ExtraRequests t.pipeline.toGateway queue)
    (checks : ChecksPass combineSize machines { t.pipeline with toGateway := queue })
    (running : t.pipeline.gatewayRunning = true)
    (stuck : ∀ t', ¬ Threads.Step total combineSize machines t t') :
    t.pipeline.emulatorChannel = [] ∧ queue = [] := by
  have blocked : ∀ next, turn total combineSize machines t.pipeline next ≠ none → next.isProver = false →
      False := fun next moves notProver => by
    obtain ⟨s', moved⟩ := Option.ne_none_iff_exists'.mp moves
    exact stuck _ (@Threads.Step.coordinator _ _ total combineSize machines t next s' notProver moved)
  cases channel : t.pipeline.emulatorChannel with
  | cons msg rest =>
    obtain ⟨⟨h, act⟩, handled⟩ := checks.gatewayEmulator running msg rest channel
    exact (blocked .gatewayEmulator (by simp [turn, running, channel, handled]) rfl).elim
  | nil =>
    cases inbox : t.pipeline.toGateway with
    | nil =>
      rw [inbox] at extras
      cases extras
      exact ⟨rfl, rfl⟩
    | cons msg rest =>
      rw [inbox] at extras
      obtain ⟨⟨h, act⟩, handled⟩ : ∃ next, GatewayLoop.onWorkerMsg t.pipeline.handler msg = .ok next := by
        rcases extras.cons_cases with ⟨rest', rfl, -⟩ | ⟨rfl, -⟩
        · exact checks.gatewayWorker running channel msg rest' rfl
        · exact ⟨_, rfl⟩
      exact (blocked .gatewayWorker (by simp [turn, running, channel, inbox, handled]) rfl).elim

/-- With nothing queued for a running gateway no prover has ended on the fast path, so the
provers spawned are all in their loops, and one of them can take whatever is queued for them. -/
theorem Threads.Phases.stuck_idle (phases : Threads.Phases proverCount t) (spawned : 0 < proverCount)
    (holds : Inv { t.pipeline with toGateway := [] }) (running : t.pipeline.gatewayRunning = true)
    (stuck : ∀ t', ¬ Threads.Step total combineSize machines t t')
    (checks : ChecksPass combineSize machines { t.pipeline with toGateway := [] }) :
    t.pipeline.toWorkers = [] := by
  have noSlot : t.pipeline.fastPathSlot = none := by
    cases slot : t.pipeline.fastPathSlot with
    | none => rfl
    | some key =>
      obtain ⟨before, proof, after, queued, -⟩ := holds.finalsQueued (by simp [slot]) running
      simp at queued
  obtain ⟨phase, spawnedOne⟩ := List.exists_mem_of_length_pos (phases.spawned ▸ spawned)
  have inLoop : phase = .running := by
    cases phase with
    | starting => exact absurd spawnedOne (Threads.stuck_started stuck)
    | running => rfl
    | exited => simpa [noSlot] using phases.exited spawnedOne
  obtain ⟨front, back, split⟩ := List.append_of_mem (inLoop ▸ spawnedOne)
  cases queued : t.pipeline.toWorkers with
  | nil => rfl
  | cons msg rest =>
    obtain ⟨⟨sent, exits⟩, handled⟩ := checks.provers msg (by simp [queued])
    exact (stuck _ (.prover split (show t.pipeline.toWorkers = [] ++ msg :: rest from queued) handled)).elim

/-- A state of the threads that no thread can move has fired the completion signal, for two
chunks or more, a prover spawned and embed proofs that verify. -/
theorem Threads.Phases.stuck_completed (sized : 2 ≤ combineSize)
    (verified : ∀ proof, machines.verify proof = true) (several : 2 ≤ total) (spawned : 0 < proverCount)
    (phases : Threads.Phases proverCount t) {s : Pipeline P E}
    (reached : Pipeline.Reachable total combineSize machines s) (abstracts : Abstracts t s)
    (stuck : ∀ t', ¬ Threads.Step total combineSize machines t t') : Completed t.pipeline := by
  obtain ⟨queue, extras, rfl⟩ := abstracts
  have holds := reachable_inv reached
  cases running : t.pipeline.gatewayRunning with
  | false =>
    obtain ⟨-, embedded, signal, -⟩ := holds.stopped running
    exact ⟨embedded, signal⟩
  | true =>
    have checks := holds.checksPass machines sized
    obtain ⟨channel, rfl⟩ := Threads.stuck_drained extras checks running stuck
    have idle := phases.stuck_idle spawned holds running stuck checks
    have emitted : t.pipeline.emitted = total :=
      (emitted_le reached).2 (Threads.stuck_emulatorDone (emitted_le reached).1 stuck)
    obtain ⟨key, proof, live, spans⟩ := holds.drained_single running channel idle rfl
      (show 0 < t.pipeline.emitted by omega)
    have single := (settles_reachable verified reached).proved key proof (by simp [live]) spans
    simp only [Spans, IndexedProof.range_eq] at spans
    omega

/-- The pipeline is the threads with one prover in its loop: where the pipeline cannot move,
neither can they. -/
theorem Threads.stuck_of_pipeline {s : Pipeline P E}
    (stuck : ∀ s', ¬ Pipeline.Step total combineSize machines s s') :
    ∀ t', ¬ Threads.Step total combineSize machines ⟨s, [.running]⟩ t' := by
  intro t' step
  cases step with
  | coordinator _ turned => exact stuck _ (turn_step total combineSize machines turned)
  | start split =>
    have spawned := congrArg (ProverPhase.starting ∈ ·) split
    simp at spawned
  | prover _ taken handled => exact stuck _ (Pipeline.Step.prover taken handled)

end Stuck

section Inevitable

variable {total combineSize proverCount : Nat} {machines : Machines P E}

/-- From a state of the threads standing for a reachable state of the pipeline, the signal fires
on every run: every step lowers the pipeline's weight, or keeps it and lowers the rank. -/
theorem Threads.Phases.completed_inevitably (sized : 2 ≤ combineSize)
    (verified : ∀ proof, machines.verify proof = true) (several : 2 ≤ total) (spawned : 0 < proverCount) :
    ∀ (bound : Nat) (t : Threads P E) (s : Pipeline P E), potential total s + rank t s < bound →
      Threads.Phases proverCount t → Pipeline.Reachable total combineSize machines s → Abstracts t s →
      Inevitably (Threads.Step total combineSize machines) (fun t => Completed t.pipeline) t := by
  intro bound
  induction bound with
  | zero => intro _ _ below; omega
  | succ bound ih =>
    intro t s below phases reached abstracts
    by_cases moves : ∃ t', Threads.Step total combineSize machines t t'
    · obtain ⟨t', step⟩ := moves
      refine .later step fun t' step => ?_
      have phases' := phases.step abstracts (reachable_inv reached) step
      rcases abstracts.step step with ⟨related, lower⟩ | ⟨s', moved, related, lower⟩
      · exact ih t' s (by omega) phases' reached related
      · have dropped := (reachable_inv reached).potential_lt moved
        exact ih t' s' (by omega) phases' (reached.step moved) related
    · exact .now (phases.stuck_completed sized verified several spawned reached abstracts
        fun t' step => moves ⟨t', step⟩)

/-- Whatever the machines and however the emulator, the gateway and the provers interleave,
every run of the threads `prove_task` spawns takes the gateway through its `Exit` arm on the
stored embed proof and sends the on-chain bytes through the completion signal, for two chunks or
more, at least one prover, embed proofs that verify and a ready gnark setup. The threads exist
only when `prove_task` did not panic spawning them: a task that asks for a GPU, or whose inputs
`bincode` cannot read, never gets here. No run stops short of the signal, and none goes on
forever. -/
theorem threads_complete_inevitably (sized : 2 ≤ combineSize)
    (verified : ∀ proof, machines.verify proof = true) (several : 2 ≤ total) (spawned : 0 < proverCount)
    {gnark : Onchain.Gnark E} (ready : gnark.Ready) {useGpu : Bool} {inputs : Option (List UInt8)}
    {decodes : List UInt8 → Bool} {start t : Threads P E}
    (started : Threads.spawn proverCount useGpu inputs decodes = some start)
    (reachable : Relation.ReflTransGen (Threads.Step total combineSize machines) start t) :
    Inevitably (Threads.Step total combineSize machines)
      (fun t => Completed t.pipeline ∧ ∃ bytes, t.pipeline.signal gnark = some (.ok bytes)) t := by
  obtain ⟨-, -, rfl⟩ := Threads.spawn_eq_some.mp started
  obtain ⟨s, reached, abstracts, phases⟩ := Threads.Reachable.refines reachable
  exact (phases.completed_inevitably sized verified several spawned _ t s (Nat.lt_succ_self _)
    reached abstracts).mono fun _ completed => ⟨completed, completed.signal_ok ready⟩

/-- The value zero as the gnark prover writes it, `0x0`. -/
def zeroField : Onchain.Field := ⟨[], ['0'], [], nofun, nofun, by decide, by decide, by decide⟩

/-- A gnark setup with its files downloaded and a prover that answers ten zeros. -/
def zeroGnark : Onchain.Gnark (Nat × Nat) :=
  ⟨fun _ => true, fun _ => .ok (Onchain.ProofText.render
    ⟨[], false, List.replicate 10 zeroField, [], nofun, nofun, rfl⟩)⟩

theorem zeroGnark_ready : zeroGnark.Ready :=
  ⟨fun _ _ => rfl, fun _ _ answered => ⟨_, (Except.ok.inj answered).symm⟩⟩

/-- Two chunks and one prover on the CPU, with no inputs: from the spawn, the signal carries
the on-chain bytes on every run. -/
theorem threads_complete_inevitably_two_chunks :
    Threads.spawn 1 false none (fun _ => true) = some (Threads.init 1 : Threads (Nat × Nat) (Nat × Nat)) ∧
      Inevitably (Threads.Step 2 2 Machines.ranges)
        (fun t => Completed t.pipeline ∧ ∃ bytes, t.pipeline.signal zeroGnark = some (.ok bytes))
        (Threads.init 1) := by
  have spawned : Threads.spawn 1 false none (fun _ => true) =
      some (Threads.init 1 : Threads (Nat × Nat) (Nat × Nat)) := rfl
  exact ⟨spawned, threads_complete_inevitably le_rfl (fun _ => rfl) le_rfl Nat.one_pos zeroGnark_ready
    spawned .refl⟩

end Inevitable

/-! ## The signal fires once -/

section Once

variable {total combineSize : Nat} {machines : Machines P E} {s s' : Pipeline P E}

/-- While the gateway runs, the signal has not fired. -/
theorem silent_while_running (reachable : Reachable total combineSize machines s) :
    s.gatewayRunning = true → s.completion = none := by
  induction reachable with
  | init => intro _; rfl
  | step _ step ih =>
    intro running
    cases step with
    | emit | emulatorComplete | prover => exact ih running
    | @gatewayEmulator _ _ _ act wasRunning | @gatewayWorker _ _ _ act wasRunning =>
      cases act <;> first | exact ih wasRunning | cases running

/-- A fired signal keeps its value: the gateway has left its loop, and no other thread touches
the signal. -/
theorem completion_stable (reachable : Reachable total combineSize machines s)
    (step : Step total combineSize machines s s') {c : Option E} (fired : s.completion = some c) :
    s'.completion = some c := by
  cases step with
  | emit | emulatorComplete | prover => exact fired
  | gatewayEmulator running | gatewayWorker running =>
    rw [silent_while_running reachable running] at fired
    cases fired

/-- The completion signal fires at most once: from the state it has fired in, every later state
of the run carries the same value, as `completion_sender.take()` ensures in the code. -/
theorem completion_fires_once (reachable : Reachable total combineSize machines s)
    (later : Relation.ReflTransGen (Step total combineSize machines) s s') {c : Option E}
    (fired : s.completion = some c) : s'.completion = some c := by
  have kept : Reachable total combineSize machines s' ∧ s'.completion = some c := by
    induction later with
    | refl => exact ⟨reachable, fired⟩
    | tail _ step ih => exact ⟨ih.1.step step, completion_stable ih.1 step ih.2⟩
  exact kept.2

/-- In the lagging run of three chunks the signal fires before the emulator has emitted the
last chunk, and the emulator's step that emits it leaves the signal as it was. -/
theorem completion_fires_once_lagging :
    ∃ s s' : Pipeline (Nat × Nat) (Nat × Nat), runTurns 3 2 Machines.ranges init earlyTurns = some s ∧
      turn 3 2 Machines.ranges s .emulator = some s' ∧ s'.emitted = 3 ∧
      s.completion = some (some (0, 1)) ∧ s'.completion = some (some (0, 1)) := by
  obtain ⟨s, s', run, moved, emitted, fired⟩ : ∃ s s' : Pipeline (Nat × Nat) (Nat × Nat),
      runTurns 3 2 Machines.ranges init earlyTurns = some s ∧
      turn 3 2 Machines.ranges s .emulator = some s' ∧ s'.emitted = 3 ∧
      s.completion = some (some (0, 1)) := ⟨_, _, rfl, rfl, rfl, rfl⟩
  exact ⟨s, s', run, moved, emitted, fired, completion_fires_once
    (runTurns_reachable 3 2 Machines.ranges .init run) (.single (turn_step 3 2 Machines.ranges moved)) fired⟩

end Once

end ProvingService.Pipeline
