import ProvingService.Pipeline.Completion
import ProvingService.Pipeline.Threads
import ProvingService.Service.Results
import Mathlib.Logic.Relation

/-!
# One proving node: the queue and the threads of the task in front

`ProvingQueue::run` takes the task at the front of its channel and awaits
`proving::prove_task` on it, which spawns the gateway, `prover_count` provers and the emulator,
and awaits the gateway's completion signal. Spawning panics when the task asks for a GPU and
there is a prover to create (`Prover::new_cuda` is `unimplemented!()`), or when `bincode`
cannot read the task's inputs; the panic ends the queue's tokio task, and no task is taken
again, while `GrpcService` still queues tasks on the channel, whose receiver `main` keeps. A
panic of `prove_embed_onchain` in the gateway's `Exit` arm drops the completion sender: the
awaited receiver fails and the queue logs the task as failed. On the signal the queue puts the
proof in memory, awaits its database write and takes the next task. The number of chunks of
each task's program, the machines, whether `bincode` reads an input and the gnark side are
parameters.
-/

set_option autoImplicit false

namespace ProvingService.Node

open Results Pipeline

/-- Where the task running `ProvingQueue::run`'s loop is. -/
inductive Queue (P E : Type) where
  /-- Waiting for the task in front, or for the database write of the last proof. -/
  | idle
  /-- Awaiting `prove_task` on the task in front, whose threads these are. -/
  | proving (threads : Threads P E)
  /-- `prove_task` panicked, and the loop with it. -/
  | panicked

/-- The service, and the queue's loop. -/
structure State (P E : Type) where
  service : Service
  queue : Queue P E

variable {P E : Type}

section Steps

/- `chunks task` is the number of chunks the emulator cuts the task's program into, `decodes`
whether `bincode` reads an input, and `gnark` what `prove_embed_onchain` finds outside the
embed proof. -/
variable (chunks : ProvingTask → Nat) (combineSize : Nat) (machines : Machines P E)
  (proverCount : Nat) (decodes : List UInt8 → Bool) (gnark : Onchain.Gnark E)

/-- One step of a node: a client request, a step of the queue, or a step of one thread of the
task in front. -/
inductive Step : State P E → State P E → Prop
  /-- A client's `ProveTask`. -/
  | request {n : State P E} {s : Service} {reply : Reply} {req : ProveTaskRequest}
      {select : Except (List Char) Unit} :
      n.service.step (.proveTask req select) = some (s, reply) → Step n { n with service := s }
  /-- A client's `GetProvingResult`. -/
  | lookup {n : State P E} {s : Service} {reply : Reply} {appId taskId : List Char}
      {select : Except (List Char) Unit} :
      n.service.step (.getProvingResult appId taskId select) = some (s, reply) →
      Step n { n with service := s }
  /-- The queue takes the task in front, no database write awaited, and `prove_task` spawns
  its threads. -/
  | start {n : State P E} {task : ProvingTask} {rest : List ProvingTask} {t : Threads P E} :
      n.service.storing = none → n.service.tasks = task :: rest → n.queue = .idle →
      Threads.spawn proverCount task.useGpu task.inputs decodes = some t →
      Step n { n with queue := .proving t }
  /-- `prove_task` panics spawning the threads. -/
  | panic {n : State P E} {task : ProvingTask} {rest : List ProvingTask} :
      n.service.storing = none → n.service.tasks = task :: rest → n.queue = .idle →
      (Threads.spawn proverCount task.useGpu task.inputs decodes : Option (Threads P E)) = none →
      Step n { n with queue := .panicked }
  /-- A thread of the task in front moves. -/
  | pipeline {n : State P E} {task : ProvingTask} {rest : List ProvingTask} {t t' : Threads P E} :
      n.service.tasks = task :: rest → n.queue = .proving t →
      Threads.Step (chunks task) combineSize machines t t' → Step n { n with queue := .proving t' }
  /-- The completion signal carries bytes: `prove_task` returns them, and the queue puts them
  in memory and awaits their database write. -/
  | finish {n : State P E} {task : ProvingTask} {rest : List ProvingTask} {t : Threads P E}
      {bytes : List UInt8} {s : Service} :
      n.service.tasks = task :: rest → n.queue = .proving t →
      t.pipeline.signal gnark = some (.ok bytes) → n.service.proved task.key (some bytes) = some s →
      Step n ⟨s, .idle⟩
  /-- `prove_embed_onchain` panicked and dropped the sender: the queue takes its failure arm. -/
  | fail {n : State P E} {task : ProvingTask} {rest : List ProvingTask} {t : Threads P E}
      {panic : Onchain.Panic} {s : Service} :
      n.service.tasks = task :: rest → n.queue = .proving t →
      t.pipeline.signal gnark = some (.error panic) → n.service.proved task.key none = some s →
      Step n ⟨s, .idle⟩
  /-- The database write returns. -/
  | stored {n : State P E} {ok : Bool} {s : Service} :
      n.service.stored ok = some s → Step n { n with service := s }

/-- The states a node reaches from a start over the database's `apps` and `proofs` tables. -/
def Reachable (apps : List (List Char)) (proofs : ProvingKey → Option (List UInt8))
    (n : State P E) : Prop :=
  Relation.ReflTransGen (Step chunks combineSize machines proverCount decodes gnark)
    ⟨Service.init apps proofs, .idle⟩ n

/-- Threads run only for the task in front, spawned without a panic, with no database write
awaited, and they are threads of that task's program. -/
def Running (n : State P E) : Prop :=
  ∀ t, n.queue = .proving t → ∃ task rest, n.service.tasks = task :: rest ∧
    n.service.storing = none ∧
    (Threads.spawn proverCount task.useGpu task.inputs decodes : Option (Threads P E)).isSome ∧
    Threads.Reachable (chunks task) combineSize machines proverCount t

variable {chunks combineSize machines proverCount decodes gnark}

theorem Running.step {n n' : State P E}
    (running : Running chunks combineSize machines proverCount decodes n)
    (step : Step chunks combineSize machines proverCount decodes gnark n n') :
    Running chunks combineSize machines proverCount decodes n' := by
  cases step with
  | request stepped =>
    intro t going
    obtain ⟨task, rest, front, idle, spawned, reached⟩ := running t going
    obtain ⟨queue, writing⟩ := Service.proveTask_tasks stepped
    rcases queue with same | ⟨_, appended⟩
    · exact ⟨task, rest, same.trans front, writing.trans idle, spawned, reached⟩
    · exact ⟨task, _, by rw [appended, front, List.cons_append], writing.trans idle, spawned,
        reached⟩
  | lookup stepped =>
    intro t going
    obtain ⟨task, rest, front, idle, spawned, reached⟩ := running t going
    obtain ⟨queue, writing⟩ := Service.getProvingResult_tasks stepped
    exact ⟨task, rest, queue.trans front, writing.trans idle, spawned, reached⟩
  | start idle front _ spawned =>
    rintro t ⟨⟩
    rw [(Threads.spawn_eq_some.mp spawned).2.2]
    exact ⟨_, _, front, idle, by rw [spawned]; rfl, .refl⟩
  | pipeline front going moved =>
    rintro t ⟨⟩
    obtain ⟨_, _, front', idle, spawned, reached⟩ := running _ going
    obtain ⟨rfl, rfl⟩ := List.cons.inj (front.symm.trans front')
    exact ⟨_, _, front', idle, spawned, Relation.ReflTransGen.tail reached moved⟩
  | panic | finish | fail => nofun
  | stored written =>
    intro t going
    obtain ⟨_, _, _, idle, _⟩ := running t going
    rw [Service.stored, idle] at written
    cases written

theorem Running.of_reachable {apps : List (List Char)} {proofs : ProvingKey → Option (List UInt8)}
    {n : State P E}
    (reachable : Reachable chunks combineSize machines proverCount decodes gnark apps proofs n) :
    Running chunks combineSize machines proverCount decodes n := by
  induction reachable with
  | refl => nofun
  | tail _ step running => exact running.step step

/-- The threads of the task in front never fire the signal when its program is one chunk, and
do not exist when spawning them panics. -/
theorem Running.silent {n : State P E} {task : ProvingTask} {rest : List ProvingTask}
    {t : Threads P E} (running : Running chunks combineSize machines proverCount decodes n)
    (front : n.service.tasks = task :: rest)
    (stalls : chunks task = 1 ∨
      (Threads.spawn proverCount task.useGpu task.inputs decodes : Option (Threads P E)) = none)
    (going : n.queue = .proving t) : t.pipeline.completion = none := by
  obtain ⟨_, _, front', -, spawned, reached⟩ := running t going
  obtain ⟨rfl, -⟩ := List.cons.inj (front.symm.trans front')
  rcases stalls with single | refused
  · obtain ⟨s, reached, abstracts, -⟩ := reached.refines
    rw [single] at reached
    rw [abstracts.completion]
    exact (unfinished_of_one_chunk reached).1.silent
  · rw [refused] at spawned
    cases spawned

/-- With such a task in front, the queue stays as it was, but for tasks appended at its back. -/
theorem Running.blocked_step {n n' : State P E} {task : ProvingTask} {rest more : List ProvingTask}
    (running : Running chunks combineSize machines proverCount decodes n)
    (stalls : chunks task = 1 ∨
      (Threads.spawn proverCount task.useGpu task.inputs decodes : Option (Threads P E)) = none)
    (front : n.service.tasks = task :: (rest ++ more))
    (step : Step chunks combineSize machines proverCount decodes gnark n n') :
    ∃ more', n'.service.tasks = task :: (rest ++ more') := by
  cases step with
  | request stepped =>
    rcases (Service.proveTask_tasks stepped).1 with same | ⟨added, appended⟩
    · exact ⟨more, same.trans front⟩
    · exact ⟨more ++ [added], by rw [appended, front]; simp⟩
  | lookup stepped => exact ⟨more, (Service.getProvingResult_tasks stepped).1.trans front⟩
  | start | panic | pipeline => exact ⟨more, front⟩
  | finish front' going signal | fail front' going signal =>
    obtain ⟨rfl, -⟩ := List.cons.inj (front.symm.trans front')
    rw [Pipeline.signal, running.silent front stalls going] at signal
    cases signal
  | stored written => exact ⟨more, (Service.stored_tasks written).1.trans front⟩

/-- Once a task whose threads never fire the signal is at the front of the queue, it stays
there, and every task behind it waits for good. -/
theorem stalled_front_stays {apps : List (List Char)} {proofs : ProvingKey → Option (List UInt8)}
    {n n' : State P E} {task : ProvingTask} {rest : List ProvingTask}
    (reachable : Reachable chunks combineSize machines proverCount decodes gnark apps proofs n)
    (front : n.service.tasks = task :: rest)
    (stalls : chunks task = 1 ∨
      (Threads.spawn proverCount task.useGpu task.inputs decodes : Option (Threads P E)) = none)
    (later : Relation.ReflTransGen (Step chunks combineSize machines proverCount decodes gnark) n n') :
    ∃ more, n'.service.tasks = task :: (rest ++ more) := by
  induction later with
  | refl => exact ⟨[], by rw [front, List.append_nil]⟩
  | tail before step ih =>
    obtain ⟨more, queue⟩ := ih
    exact (Running.of_reachable (Relation.ReflTransGen.trans reachable before)).blocked_step stalls
      queue step

/-- Once a task whose program is one chunk is at the front of the queue it stays there: its
threads never fire the signal, so the queue never finishes it, and every task queued behind it
waits for good. -/
theorem single_chunk_blocks_queue {apps : List (List Char)}
    {proofs : ProvingKey → Option (List UInt8)} {n n' : State P E} {task : ProvingTask}
    {rest : List ProvingTask}
    (reachable : Reachable chunks combineSize machines proverCount decodes gnark apps proofs n)
    (front : n.service.tasks = task :: rest) (single : chunks task = 1)
    (later : Relation.ReflTransGen (Step chunks combineSize machines proverCount decodes gnark) n n') :
    ∃ more, n'.service.tasks = task :: (rest ++ more) :=
  stalled_front_stays reachable front (.inl single) later

/-- Once a task whose threads `prove_task` cannot spawn is at the front of the queue, a task
asking for a GPU with a prover to create or one whose inputs `bincode` cannot read, it stays
there: the panic ends the queue's loop, and every task queued behind it, or accepted later,
waits for good. -/
theorem unspawnable_task_blocks_queue {apps : List (List Char)}
    {proofs : ProvingKey → Option (List UInt8)} {n n' : State P E} {task : ProvingTask}
    {rest : List ProvingTask}
    (reachable : Reachable chunks combineSize machines proverCount decodes gnark apps proofs n)
    (front : n.service.tasks = task :: rest)
    (refused : (Threads.spawn proverCount task.useGpu task.inputs decodes : Option (Threads P E)) = none)
    (later : Relation.ReflTransGen (Step chunks combineSize machines proverCount decodes gnark) n n') :
    ∃ more, n'.service.tasks = task :: (rest ++ more) :=
  stalled_front_stays reachable front (.inr refused) later

end Steps

/-- The task the service queues for `Results.Service.abRequest`. -/
def abTask : ProvingTask := ⟨Service.abKey, "ab".toList, none, false⟩

/-- A service over the app `ab` that has accepted `abRequest`. -/
theorem abRequest_accepted :
    (Service.init ["ab".toList] fun _ => none).step (.proveTask Service.abRequest (.ok ())) =
      some ({ Service.init ["ab".toList] fun _ => none with tasks := [abTask] }, .proveTask (.ok ())) :=
  rfl

/-- A task of one chunk accepted, then started with one prover: it is in front of the queue, and
stays there. -/
theorem single_chunk_blocks_queue_started :
    ∃ n n' : State (Nat × Nat) (Nat × Nat),
      Reachable (fun _ => 1) 2 Machines.ranges 1 (fun _ => true) dockerDown ["ab".toList]
        (fun _ => none) n ∧
      n.service.tasks = [abTask] ∧
      Relation.ReflTransGen (Step (fun _ => 1) 2 Machines.ranges 1 (fun _ => true) dockerDown) n n' ∧
      n'.queue = .proving (Threads.init 1) ∧ ∃ more, n'.service.tasks = abTask :: ([] ++ more) := by
  have reachable : Reachable (fun _ => 1) 2 Machines.ranges 1 (fun _ => true) dockerDown
      ["ab".toList] (fun _ => none) ⟨{ Service.init ["ab".toList] fun _ => none with tasks := [abTask] }, .idle⟩ :=
    .single (.request abRequest_accepted)
  have started : Relation.ReflTransGen (Step (fun _ => 1) 2 Machines.ranges 1 (fun _ => true) dockerDown)
      ⟨{ Service.init ["ab".toList] fun _ => none with tasks := [abTask] }, .idle⟩
      ⟨{ Service.init ["ab".toList] fun _ => none with tasks := [abTask] }, .proving (Threads.init 1)⟩ :=
    .single (.start rfl rfl rfl rfl)
  exact ⟨_, _, reachable, rfl, started, rfl, single_chunk_blocks_queue reachable rfl rfl started⟩

/-- `abRequest` asking for a GPU. -/
def gpuRequest : ProveTaskRequest := { Service.abRequest with useGpu := some true }

/-- The task the service queues for `gpuRequest`. -/
def gpuTask : ProvingTask := { abTask with useGpu := true }

/-- A task asking for a GPU, accepted on a node with one prover: the queue panics on it, and it
stays in front. -/
theorem unspawnable_task_blocks_queue_gpu :
    ∃ n n' : State (Nat × Nat) (Nat × Nat),
      Reachable (fun _ => 2) 2 Machines.ranges 1 (fun _ => true) dockerDown ["ab".toList]
        (fun _ => none) n ∧
      n.service.tasks = [gpuTask] ∧
      Relation.ReflTransGen (Step (fun _ => 2) 2 Machines.ranges 1 (fun _ => true) dockerDown) n n' ∧
      n'.queue = .panicked ∧ ∃ more, n'.service.tasks = gpuTask :: ([] ++ more) := by
  have accepted : (Service.init ["ab".toList] fun _ => none).step (.proveTask gpuRequest (.ok ())) =
      some ({ Service.init ["ab".toList] fun _ => none with tasks := [gpuTask] }, .proveTask (.ok ())) :=
    rfl
  have reachable : Reachable (fun _ => 2) 2 Machines.ranges 1 (fun _ => true) dockerDown
      ["ab".toList] (fun _ => none) ⟨{ Service.init ["ab".toList] fun _ => none with tasks := [gpuTask] }, .idle⟩ :=
    .single (.request accepted)
  have panicked : Relation.ReflTransGen (Step (fun _ => 2) 2 Machines.ranges 1 (fun _ => true) dockerDown)
      ⟨{ Service.init ["ab".toList] fun _ => none with tasks := [gpuTask] }, .idle⟩
      ⟨{ Service.init ["ab".toList] fun _ => none with tasks := [gpuTask] }, .panicked⟩ :=
    .single (.panic rfl rfl rfl rfl)
  exact ⟨_, _, reachable, rfl, panicked, rfl, unspawnable_task_blocks_queue reachable rfl rfl panicked⟩

end ProvingService.Node
