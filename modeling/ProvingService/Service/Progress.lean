import ProvingService.Service.Node
import ProvingService.Pipeline.Signal

/-!
# The queue drains

Once clients stop sending requests, the node's own steps finish every task queued: the queue
starts the task in front, its threads come to rest with the completion signal fired,
`prove_task` returns, the proof goes into memory, the database write returns, and the queue
takes the next task. Each step lowers a weight: what the tasks queued still cost, with the
threads of the task in front at their weight, and nothing once the queue has panicked. This
needs every program to be two chunks or more, since a run of one chunk never fires the signal
(`single_chunk_blocks_queue`), a prover, embed proofs that verify, and tasks whose threads
`prove_task` spawns without a panic (`unspawnable_task_blocks_queue`). A panic of
`prove_embed_onchain` fails the task and the queue goes on; under a ready gnark setup there is
none, and every task accepted gets its proof into memory, where `GetProvingResult` finds it.
-/

set_option autoImplicit false

namespace ProvingService.Results.Service

variable {s s' : Service} {key : ProvingKey}

/-- The queue finishes only the task in front, with no write awaited, and puts a proof in
memory and awaits its write. -/
theorem proved_front {result : Option (List UInt8)} (done : s.proved key result = some s') :
    s.storing = none ∧ (∃ next, s.tasks = next :: s'.tasks ∧ next.key = key) ∧
      s'.storing = result.map (key, ·) ∧
      s'.outputs = result.elim s.outputs fun proof => Function.update s.outputs key (some proof) := by
  unfold Service.proved at done
  split at done
  · rename_i next rest idle queued
    split_ifs at done with head
    cases result <;> cases done <;> exact ⟨idle, ⟨next, queued, head⟩, by first | rfl | exact idle, rfl⟩
  · cases done

theorem proved_of_front (result : Option (List UInt8)) {next : ProvingTask} {rest : List ProvingTask}
    (idle : s.storing = none) (front : s.tasks = next :: rest) :
    ∃ s', s.proved next.key result = some s' := by
  cases result <;> simp [Service.proved, idle, front]

theorem stored_of_writing (ok : Bool) {writing : ProvingKey × List UInt8}
    (awaited : s.storing = some writing) : ∃ s', s.stored ok = some s' := by
  simp [Service.stored, awaited]

end ProvingService.Results.Service

namespace ProvingService.Node

open Results Pipeline

variable {P E : Type}

section Steps

variable (chunks : ProvingTask → Nat) (combineSize : Nat) (machines : Machines P E)
  (proverCount : Nat) (decodes : List UInt8 → Bool) (gnark : Onchain.Gnark E)

/-- A step of the node that no client takes: the queue, a thread of the task in front, or the
database. -/
inductive Internal : State P E → State P E → Prop
  | start {n : State P E} {task : ProvingTask} {rest : List ProvingTask} {t : Threads P E} :
      n.service.storing = none → n.service.tasks = task :: rest → n.queue = .idle →
      Threads.spawn proverCount task.useGpu task.inputs decodes = some t →
      Internal n { n with queue := .proving t }
  | panic {n : State P E} {task : ProvingTask} {rest : List ProvingTask} :
      n.service.storing = none → n.service.tasks = task :: rest → n.queue = .idle →
      (Threads.spawn proverCount task.useGpu task.inputs decodes : Option (Threads P E)) = none →
      Internal n { n with queue := .panicked }
  | pipeline {n : State P E} {task : ProvingTask} {rest : List ProvingTask} {t t' : Threads P E} :
      n.service.tasks = task :: rest → n.queue = .proving t →
      Threads.Step (chunks task) combineSize machines t t' →
      Internal n { n with queue := .proving t' }
  | finish {n : State P E} {task : ProvingTask} {rest : List ProvingTask} {t : Threads P E}
      {bytes : List UInt8} {s : Service} :
      n.service.tasks = task :: rest → n.queue = .proving t →
      t.pipeline.signal gnark = some (.ok bytes) → n.service.proved task.key (some bytes) = some s →
      Internal n ⟨s, .idle⟩
  | fail {n : State P E} {task : ProvingTask} {rest : List ProvingTask} {t : Threads P E}
      {panic : Onchain.Panic} {s : Service} :
      n.service.tasks = task :: rest → n.queue = .proving t →
      t.pipeline.signal gnark = some (.error panic) → n.service.proved task.key none = some s →
      Internal n ⟨s, .idle⟩
  | stored {n : State P E} {ok : Bool} {s : Service} :
      n.service.stored ok = some s → Internal n { n with service := s }

/-- Nothing queued, the queue waiting and no write awaited. -/
def Drained (n : State P E) : Prop :=
  n.service.tasks = [] ∧ n.queue = .idle ∧ n.service.storing = none

/-- What the tasks queued still cost: a start, at most `8 * chunks + 2 + 2 * proverCount` steps
of the threads, the `proved` and the database write. -/
def tasksWeight : List ProvingTask → Nat
  | [] => 0
  | task :: rest => 8 * chunks task + 2 * proverCount + 5 + tasksWeight rest

/-- What the node's own steps can still do: the threads of the task in front at their weight,
the tasks behind it, and a write awaited; nothing of the tasks once the queue has panicked. -/
def weight (n : State P E) : Nat :=
  (match n.queue, n.service.tasks with
    | .proving t, task :: rest =>
      Threads.weight (chunks task) t + 2 + tasksWeight chunks proverCount rest
    | .panicked, _ => 0
    | _, tasks => tasksWeight chunks proverCount tasks) +
  if n.service.storing.isSome then 1 else 0

/-- The queue's loop is alive, and `prove_task` spawns the threads of every task queued without
a panic. -/
def Spawnable (n : State P E) : Prop :=
  n.queue ≠ .panicked ∧ ∀ task ∈ n.service.tasks,
    (Threads.spawn proverCount task.useGpu task.inputs decodes : Option (Threads P E)).isSome

/-- A task queued, or its proof in memory. -/
def Pending (key : ProvingKey) (n : State P E) : Prop :=
  (∃ task ∈ n.service.tasks, task.key = key) ∨ (n.service.outputs key).isSome

variable {chunks combineSize machines proverCount decodes gnark}

theorem Internal.step {n n' : State P E}
    (internal : Internal chunks combineSize machines proverCount decodes gnark n n') :
    Step chunks combineSize machines proverCount decodes gnark n n' := by
  cases internal with
  | start idle front going spawned => exact .start idle front going spawned
  | panic idle front going refused => exact .panic idle front going refused
  | pipeline front going moved => exact .pipeline front going moved
  | finish front going signal done => exact .finish front going signal done
  | fail front going signal done => exact .fail front going signal done
  | stored written => exact .stored written

/-- A task `proved` leaves the queue as the tasks behind it. -/
private theorem proved_rest {s s' : Service} {task : ProvingTask} {rest : List ProvingTask}
    {result : Option (List UInt8)} (front : s.tasks = task :: rest)
    (done : s.proved task.key result = some s') : s'.tasks = rest := by
  obtain ⟨-, ⟨_, queued, -⟩, -⟩ := Service.proved_front done
  rw [front, List.cons.injEq] at queued
  exact queued.2.symm

/-- Every step of the node's own lowers the weight. -/
theorem Running.weight_lt {n n' : State P E}
    (running : Running chunks combineSize machines proverCount decodes n)
    (internal : Internal chunks combineSize machines proverCount decodes gnark n n') :
    weight chunks proverCount n' < weight chunks proverCount n := by
  cases internal with
  | start idle front going spawned =>
    rw [(Threads.spawn_eq_some.mp spawned).2.2]
    simp only [weight, front, going, idle, tasksWeight, Threads.weight_init, Option.isSome_none,
      Bool.false_eq_true, if_false]
    omega
  | panic idle front going =>
    simp only [weight, front, going, idle, tasksWeight, Option.isSome_none, Bool.false_eq_true,
      if_false]
    omega
  | pipeline front going moved =>
    obtain ⟨_, _, front', -, -, reached⟩ := running _ going
    obtain ⟨rfl, rfl⟩ := List.cons.inj (front.symm.trans front')
    have lower := reached.weight_lt moved
    simp only [weight, front, going]
    omega
  | finish front going _ done | fail front going _ done =>
    obtain ⟨idle, -, writing, -⟩ := Service.proved_front done
    simp only [weight, front, going, idle, proved_rest front done, writing, Option.map_some',
      Option.map_none', Option.isSome_some, Option.isSome_none, eq_self_iff_true, Bool.false_eq_true,
      if_true, if_false]
    omega
  | stored written =>
    obtain ⟨queued, idle⟩ := Service.stored_tasks written
    cases awaited : n.service.storing with
    | none => simp [Service.stored, awaited] at written
    | some writing => simp [weight, queued, idle, awaited]

/-- Where the node's own steps cannot move, the queue has drained or panicked: a write awaited
returns, a task in front is spawned or panics, and its threads, of two chunks or more and with
a prover, move until the signal fires, which finishes the task or fails it. -/
theorem Running.drained (sized : 2 ≤ combineSize) (verified : ∀ proof, machines.verify proof = true)
    (several : ∀ task, 2 ≤ chunks task) (spawned : 0 < proverCount) {n : State P E}
    (running : Running chunks combineSize machines proverCount decodes n)
    (stuck : ∀ n', ¬ Internal chunks combineSize machines proverCount decodes gnark n n') :
    Drained n ∨ n.queue = .panicked := by
  cases awaited : n.service.storing with
  | some writing =>
    obtain ⟨s, written⟩ := Service.stored_of_writing true awaited
    exact (stuck _ (.stored written)).elim
  | none =>
    cases going : n.queue with
    | panicked => exact .inr rfl
    | idle =>
      cases queued : n.service.tasks with
      | nil => exact .inl ⟨queued, going, awaited⟩
      | cons task rest =>
        cases spawn : (Threads.spawn proverCount task.useGpu task.inputs decodes : Option (Threads P E)) with
        | none => exact (stuck _ (.panic awaited queued going spawn)).elim
        | some t => exact (stuck _ (.start awaited queued going spawn)).elim
    | proving t =>
      obtain ⟨task, rest, front, idle, -, reached⟩ := running t going
      by_cases moves : ∃ t', Threads.Step (chunks task) combineSize machines t t'
      · obtain ⟨t', moved⟩ := moves
        exact (stuck _ (.pipeline front going moved)).elim
      · obtain ⟨s, reached, abstracts, phases⟩ := reached.refines
        have completed := phases.stuck_completed sized verified (several task) spawned reached
          abstracts fun t' moved => moves ⟨t', moved⟩
        have signal : t.pipeline.signal gnark = some (Onchain.exitArm gnark t.pipeline.handler.embedProof) := by
          rw [Pipeline.signal, completed.2]
          rfl
        cases sent : Onchain.exitArm gnark t.pipeline.handler.embedProof with
        | ok bytes =>
          obtain ⟨s', done⟩ := Service.proved_of_front (some bytes) idle front
          exact (stuck _ (.finish front going (sent ▸ signal) done)).elim
        | error panic =>
          obtain ⟨s', done⟩ := Service.proved_of_front none idle front
          exact (stuck _ (.fail front going (sent ▸ signal) done)).elim

theorem Spawnable.step {n n' : State P E} (spawnable : Spawnable proverCount decodes n)
    (internal : Internal chunks combineSize machines proverCount decodes gnark n n') :
    Spawnable proverCount decodes n' := by
  obtain ⟨alive, tasks⟩ := spawnable
  cases internal with
  | start | pipeline => exact ⟨nofun, tasks⟩
  | panic _ front _ refused =>
    have spawns := tasks _ (by rw [front]; exact List.mem_cons_self _ _)
    rw [refused] at spawns
    cases spawns
  | finish front _ _ done | fail front _ _ done =>
    refine ⟨nofun, fun task queued => tasks task ?_⟩
    rw [front, ← proved_rest front done]
    exact List.mem_cons_of_mem _ queued
  | stored written =>
    exact ⟨alive, fun task queued => tasks task ((Service.stored_tasks written).1 ▸ queued)⟩

/-- Under a ready gnark setup the node's own steps keep a task pending until its proof is in
memory: the signal always carries bytes, so the queue never takes its failure arm. -/
theorem Running.pending_step {key : ProvingKey} {n n' : State P E} (ready : gnark.Ready)
    (pending : Pending key n)
    (internal : Internal chunks combineSize machines proverCount decodes gnark n n') : Pending key n' := by
  cases internal with
  | start | panic | pipeline => exact pending
  | @finish task _ _ _ _ front _ _ done =>
    obtain ⟨-, -, -, outputs⟩ := Service.proved_front done
    by_cases same : key = task.key
    · subst same
      exact .inr (by simp [outputs])
    · rcases pending with ⟨waiting, queued, named⟩ | held
      · rw [front] at queued
        rcases List.mem_cons.mp queued with rfl | behind
        · exact (same named.symm).elim
        · exact .inl ⟨waiting, proved_rest front done ▸ behind, named⟩
      · exact .inr (by simpa [outputs, Function.update_noteq same] using held)
  | fail _ _ signal =>
    obtain ⟨proof, _, sent⟩ := Option.map_eq_some'.mp signal
    obtain ⟨bytes, returned⟩ := ready.exitArm_ok proof
    rw [returned] at sent
    cases sent
  | stored written =>
    unfold Service.stored at written
    split at written
    · cases written
      exact pending
    · cases written

end Steps

section Inevitable

variable {chunks : ProvingTask → Nat} {combineSize : Nat} {machines : Machines P E}
  {proverCount : Nat} {decodes : List UInt8 → Bool} {gnark : Onchain.Gnark E}

theorem Running.settled_inevitably (sized : 2 ≤ combineSize)
    (verified : ∀ proof, machines.verify proof = true) (several : ∀ task, 2 ≤ chunks task)
    (spawned : 0 < proverCount) :
    ∀ (bound : Nat) (n : State P E), weight chunks proverCount n < bound →
      Running chunks combineSize machines proverCount decodes n →
      Inevitably (Internal chunks combineSize machines proverCount decodes gnark)
        (fun n => Drained n ∨ n.queue = .panicked) n := by
  intro bound
  induction bound with
  | zero => intro _ below; omega
  | succ bound ih =>
    intro n below running
    by_cases moves : ∃ n', Internal chunks combineSize machines proverCount decodes gnark n n'
    · obtain ⟨n', step⟩ := moves
      refine .later step fun n' step => ?_
      have lower := running.weight_lt step
      exact ih n' (by omega) (running.step step.step)
    · exact .now (running.drained sized verified several spawned fun n' step => moves ⟨n', step⟩)

/-- From every state a node reaches whose queue is alive, with every task queued on the CPU and
with inputs `bincode` reads, every run of the node's own steps drains the queue. -/
private theorem drained_inevitably (sized : 2 ≤ combineSize)
    (verified : ∀ proof, machines.verify proof = true) (several : ∀ task, 2 ≤ chunks task)
    (spawned : 0 < proverCount) {apps : List (List Char)} {proofs : ProvingKey → Option (List UInt8)}
    {n : State P E} (reachable : Reachable chunks combineSize machines proverCount decodes gnark apps proofs n)
    (alive : n.queue ≠ .panicked) (cpu : ∀ task ∈ n.service.tasks, task.useGpu = false)
    (readable : ∀ task ∈ n.service.tasks, ∀ bytes ∈ task.inputs, decodes bytes = true) :
    Inevitably (Internal chunks combineSize machines proverCount decodes gnark)
      (fun n => Drained n ∧ Running chunks combineSize machines proverCount decodes n) n := by
  have running := Running.of_reachable reachable
  have spawnable : Spawnable proverCount decodes n := ⟨alive, fun task queued =>
    Option.isSome_iff_exists.mpr ⟨_, Threads.spawn_eq_some.mpr
      ⟨.inl (cpu task queued), readable task queued, rfl⟩⟩⟩
  have kept : ∀ a b, Internal chunks combineSize machines proverCount decodes gnark a b →
      Running chunks combineSize machines proverCount decodes a ∧ Spawnable proverCount decodes a →
        Running chunks combineSize machines proverCount decodes b ∧ Spawnable proverCount decodes b :=
    fun _ _ step ⟨running, spawnable⟩ => ⟨running.step step.step, spawnable.step step⟩
  refine (Inevitably.and_invariant kept
    (running.settled_inevitably sized verified several spawned _ n (Nat.lt_succ_self _))
    ⟨running, spawnable⟩).mono ?_
  rintro n ⟨drained | panicked, running, alive, -⟩
  · exact ⟨drained, running⟩
  · exact (alive panicked).elim

/-- Once clients stop sending requests, every task queued is finished, whatever order the
threads of each task take: from every state a node reaches whose queue's loop is alive, every
run of its own steps comes to a state with nothing queued, the queue waiting and no write
awaited, a task whose `prove_embed_onchain` panicked being logged as failed. Every program must
be two chunks or more, there must be a prover, embed proofs must verify, and every task queued
must be on the CPU with inputs `bincode` reads: otherwise `prove_task` panics and ends the
queue's loop. -/
theorem queue_drains_inevitably (sized : 2 ≤ combineSize)
    (verified : ∀ proof, machines.verify proof = true) (several : ∀ task, 2 ≤ chunks task)
    (spawned : 0 < proverCount) {apps : List (List Char)} {proofs : ProvingKey → Option (List UInt8)}
    {n : State P E} (reachable : Reachable chunks combineSize machines proverCount decodes gnark apps proofs n)
    (alive : n.queue ≠ .panicked) (cpu : ∀ task ∈ n.service.tasks, task.useGpu = false)
    (readable : ∀ task ∈ n.service.tasks, ∀ bytes ∈ task.inputs, decodes bytes = true) :
    Inevitably (Internal chunks combineSize machines proverCount decodes gnark) Drained n :=
  (drained_inevitably sized verified several spawned reachable alive cpu readable).mono
    fun _ settled => settled.1

/-- The node right after it accepted `abRequest`. -/
def abAccepted : State (Nat × Nat) (Nat × Nat) :=
  ⟨{ Service.init ["ab".toList] fun _ => none with tasks := [abTask] }, .idle⟩

/-- Two chunks per program and one prover, a task accepted on a fresh node: the queue drains,
whatever the gnark side does. -/
theorem queue_drains_inevitably_accepted :
    Inevitably (Internal (fun _ => 2) 2 Machines.ranges 1 (fun _ => true) dockerDown) Drained
      abAccepted :=
  queue_drains_inevitably le_rfl (fun _ => rfl) (fun _ => le_rfl) Nat.one_pos
    (.single (.request abRequest_accepted)) nofun (by simp [abAccepted, abTask]) (by simp [abAccepted, abTask])

/-- Every task accepted gets its proof into memory, where `GetProvingResult` finds it: once
clients stop sending requests, every run of the node's own steps from a state that has the task
queued comes to a state where the queue has drained and memory holds a proof under the task's
key. Every program must be two chunks or more, there must be a prover, embed proofs must
verify, the gnark setup must be ready, so that `prove_embed_onchain` does not panic and fail the
task, and every task queued must be on the CPU with inputs `bincode` reads. -/
theorem accepted_task_proved_inevitably (sized : 2 ≤ combineSize)
    (verified : ∀ proof, machines.verify proof = true) (several : ∀ task, 2 ≤ chunks task)
    (spawned : 0 < proverCount) (ready : gnark.Ready) {apps : List (List Char)}
    {proofs : ProvingKey → Option (List UInt8)} {n : State P E} {task : ProvingTask}
    (reachable : Reachable chunks combineSize machines proverCount decodes gnark apps proofs n)
    (alive : n.queue ≠ .panicked) (cpu : ∀ task ∈ n.service.tasks, task.useGpu = false)
    (readable : ∀ task ∈ n.service.tasks, ∀ bytes ∈ task.inputs, decodes bytes = true)
    (queued : task ∈ n.service.tasks) :
    Inevitably (Internal chunks combineSize machines proverCount decodes gnark)
      (fun n => Drained n ∧ ∃ proof, n.service.outputs task.key = some proof) n := by
  have kept : ∀ a b, Internal chunks combineSize machines proverCount decodes gnark a b →
      Pending task.key a → Pending task.key b :=
    fun _ _ step pending => Running.pending_step ready pending step
  refine (Inevitably.and_invariant kept
    (drained_inevitably sized verified several spawned reachable alive cpu readable)
    (.inl ⟨task, queued, rfl⟩)).mono ?_
  rintro n ⟨⟨drained, -⟩, ⟨_, waiting, -⟩ | stored⟩
  · rw [drained.1] at waiting
    cases waiting
  · exact ⟨drained, Option.isSome_iff_exists.mp stored⟩

/-- The task accepted on a fresh node, with a gnark setup that answers ten zeros. -/
theorem accepted_task_proved_inevitably_ab :
    Inevitably (Internal (fun _ => 2) 2 Machines.ranges 1 (fun _ => true) zeroGnark)
      (fun n => Drained n ∧ ∃ proof, n.service.outputs abTask.key = some proof) abAccepted :=
  accepted_task_proved_inevitably le_rfl (fun _ => rfl) (fun _ => le_rfl) Nat.one_pos zeroGnark_ready
    (.single (.request abRequest_accepted)) nofun (by simp [abAccepted, abTask])
    (by simp [abAccepted, abTask]) (List.mem_singleton_self _)

end Inevitable

end ProvingService.Node
