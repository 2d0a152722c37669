import Mathlib.Logic.Function.Basic

/-!
# Proof results: memory, database and lookups

`ProvingQueue::run` proves one task at a time. On success it inserts the proof into the
in-memory `outputs` map and then, after an await, writes it to the `proofs` table with
`INSERT OR REPLACE`; a failed write is only logged. `GrpcService::get_proving_result` takes a
proof out of memory on a hit and otherwise reads the table. `GrpcService::prove_task` finds the
app with `AppManager::get_app`, which strips a leading `0x`, but keys the task on the app id as
it was sent. Strings are lists of characters and proofs lists of bytes. The database is SQLite:
a read or a write may fail, and what it returns is given with the request that reads it; the
`proofs` table is a file, and a service starts over whatever it holds.
-/

set_option autoImplicit false

namespace ProvingService.Results

/-- `s.strip_prefix(pre).unwrap_or(s)`. -/
def stripPrefixOr (pre s : List Char) : List Char :=
  if pre.isPrefixOf s then s.drop pre.length else s

/-- `AppManager::get_app`: the `SELECT` fails with the text of its error, or finds the
registered app whose id is `app_id` without a leading `0x`. An app is its id here: the program
and keys of its row play no part in how results are keyed. -/
def getApp (apps : List (List Char)) (appId : List Char) (select : Except (List Char) Unit) :
    Except (List Char) (Option (List Char)) :=
  select.map fun _ => apps.find? (· == stripPrefixOr "0x".toList appId)

/-- Results of the database and of the handlers compare by value. -/
instance decEqExcept {ε α : Type} [DecidableEq ε] [DecidableEq α] : DecidableEq (Except ε α)
  | .ok a, .ok b => decidable_of_iff (a = b) ⟨congrArg _, Except.ok.inj⟩
  | .error a, .error b => decidable_of_iff (a = b) ⟨congrArg _, Except.error.inj⟩
  | .ok _, .error _ => isFalse nofun
  | .error _, .ok _ => isFalse nofun

example : getApp ["ab".toList] "0xab".toList (.ok ()) = getApp ["ab".toList] "ab".toList (.ok ()) := by
  decide

/-- `ProvingKey`: what a task's result is stored and looked up under. -/
structure ProvingKey where
  appId : List Char
  taskId : List Char
  deriving DecidableEq, Repr

/-- The `tonic::Status` a request is refused with. -/
inductive Status where
  | notFound (message : List Char)
  | internal (message : List Char)
  deriving DecidableEq, Repr

/-- How `estimate_cost` and `prove_task` open: `get_app`, its error answered as
`Status::internal` and a missing app as `Status::not_found`. -/
def requireApp (apps : List (List Char)) (appId : List Char) (select : Except (List Char) Unit) :
    Except Status (List Char) :=
  match getApp apps appId select with
  | .error e => .error (.internal ("failed to get app: ".toList ++ e))
  | .ok none => .error (.notFound ("cannot find app ".toList ++ appId))
  | .ok (some app) => .ok app

/-- `ProveTaskRequest`. -/
structure ProveTaskRequest where
  appId : List Char
  taskId : List Char
  inputs : Option (List UInt8)
  useGpu : Option Bool
  deriving DecidableEq, Repr

/-- `ProvingTask`: the key, the app `get_app` found, standing for its program and keys, the
inputs and whether to prove on a GPU. -/
structure ProvingTask where
  key : ProvingKey
  app : List Char
  inputs : Option (List UInt8)
  useGpu : Bool
  deriving DecidableEq, Repr

/-- The service's shared state. -/
structure Service where
  /-- The app ids of the `apps` table. -/
  apps : List (List Char)
  /-- The tasks not finished, oldest first: the one the queue is proving, then the channel. -/
  tasks : List ProvingTask
  /-- `ProvingQueue::outputs`, the in-memory `DashMap`. -/
  outputs : ProvingKey → Option (List UInt8)
  /-- The `proofs` table. -/
  proofs : ProvingKey → Option (List UInt8)
  /-- The proof the queue has put in memory and whose database write it awaits. -/
  storing : Option (ProvingKey × List UInt8)

namespace Service

/-- A service started over the database's `apps` and `proofs` tables: nothing queued or in
memory. -/
def init (apps : List (List Char)) (proofs : ProvingKey → Option (List UInt8)) : Service :=
  ⟨apps, [], fun _ => none, proofs, none⟩

/-- `GrpcService::prove_task`: queue the task under the app id as sent, once `get_app` finds
the app; `use_gpu` defaults to `false`. Sending on the channel cannot fail, since `main` keeps
its receiver for as long as the server runs. -/
def proveTask (s : Service) (req : ProveTaskRequest) (select : Except (List Char) Unit) :
    Except Status Service :=
  (requireApp s.apps req.appId select).map fun app =>
    { s with tasks := s.tasks ++ [⟨⟨req.appId, req.taskId⟩, app, req.inputs, req.useGpu.getD false⟩] }

/-- `GrpcService::get_proving_result`: remove the proof from memory on a hit, otherwise read
the table, whose `SELECT` may fail. -/
def getProvingResult (s : Service) (appId taskId : List Char) (select : Except (List Char) Unit) :
    Except Status (Service × Option (List UInt8)) :=
  let key : ProvingKey := ⟨appId, taskId⟩
  match s.outputs key, select with
  | some proof, _ => .ok ({ s with outputs := Function.update s.outputs key none }, some proof)
  | none, .error e => .error (.internal ("failed to get proof from database: ".toList ++ e))
  | none, .ok () => .ok (s, s.proofs key)

/-- `ProvingQueue::run` up to its database write: the task at the head of the channel has been
proved (`some`) or has failed (`none`, only logged); a proof goes into memory. The queue takes
no task while a write is awaited. -/
def proved (s : Service) (key : ProvingKey) (result : Option (List UInt8)) : Option Service :=
  match s.storing, s.tasks with
  | none, next :: rest =>
    if next.key = key then
      match result with
      | some proof => some { s with
          tasks := rest
          outputs := Function.update s.outputs key (some proof)
          storing := some (key, proof) }
      | none => some { s with tasks := rest }
    else none
  | _, _ => none

/-- `ProvingQueue::store_proof_in_db` returned; a failed write is only logged. -/
def stored (s : Service) (ok : Bool) : Option Service :=
  match s.storing with
  | some (key, proof) => some { s with
      proofs := if ok then Function.update s.proofs key (some proof) else s.proofs
      storing := none }
  | none => none

end Service

/-- What happens next: a request from a client, with what its database read returns, or the
queue moving on. -/
inductive Event where
  | proveTask (req : ProveTaskRequest) (select : Except (List Char) Unit)
  | getProvingResult (appId taskId : List Char) (select : Except (List Char) Unit)
  | proved (key : ProvingKey) (result : Option (List UInt8))
  | stored (ok : Bool)
  deriving DecidableEq, Repr

/-- What a client is answered; the queue's own steps answer nobody. -/
inductive Reply where
  | proveTask (result : Except Status Unit)
  | proof (result : Except Status (Option (List UInt8)))
  | queue
  deriving Repr

namespace Service

/-- One event, if it can happen, with its answer. A refused request leaves the state as it
was. -/
def step (s : Service) : Event → Option (Service × Reply)
  | .proveTask req select =>
    match s.proveTask req select with
    | .ok s' => some (s', .proveTask (.ok ()))
    | .error status => some (s, .proveTask (.error status))
  | .getProvingResult appId taskId select =>
    match s.getProvingResult appId taskId select with
    | .ok (s', proof) => some (s', .proof (.ok proof))
    | .error status => some (s, .proof (.error status))
  | .proved key result => (s.proved key result).map (·, .queue)
  | .stored ok => (s.stored ok).map (·, .queue)

/-- A run, each event with its answer. -/
inductive Steps : Service → List (Event × Reply) → Service → Prop
  | nil (s : Service) : Steps s [] s
  | cons {s s' s'' : Service} {event : Event} {reply : Reply} {rest : List (Event × Reply)} :
      s.step event = some (s', reply) → Steps s' rest s'' → Steps s ((event, reply) :: rest) s''

/-- The states a service reaches, from a start over any tables. -/
inductive Reachable : Service → Prop
  | init (apps : List (List Char)) (proofs : ProvingKey → Option (List UInt8)) :
      Reachable (init apps proofs)
  | step {s s' : Service} {event : Event} {reply : Reply} :
      Reachable s → s.step event = some (s', reply) → Reachable s'

variable {s s' s'' : Service} {event : Event} {reply : Reply} {trace : List (Event × Reply)}

theorem Steps.reachable (reachable : Reachable s) (steps : Steps s trace s') : Reachable s' := by
  induction steps with
  | nil => exact reachable
  | cons stepped _ ih => exact ih (reachable.step stepped)

theorem Steps.split {before after : List (Event × Reply)} (steps : Steps s (before ++ after) s'') :
    ∃ s', Steps s before s' ∧ Steps s' after s'' := by
  induction before generalizing s with
  | nil => exact ⟨s, .nil s, steps⟩
  | cons head before ih =>
    obtain ⟨event, reply⟩ := head
    cases steps with
    | cons stepped rest =>
      obtain ⟨mid, first, second⟩ := ih rest
      exact ⟨mid, .cons stepped first, second⟩

/-- The message a failed read of the `proofs` table is answered with. -/
def dbReadError (e : List Char) : Status := .internal ("failed to get proof from database: ".toList ++ e)

/-- Everything a step can do. -/
theorem step_cases (stepped : s.step event = some (s', reply)) :
    (∃ req select, event = .proveTask req select ∧
      ((∃ app, requireApp s.apps req.appId select = .ok app ∧
        s' = { s with tasks := s.tasks ++
          [⟨⟨req.appId, req.taskId⟩, app, req.inputs, req.useGpu.getD false⟩] } ∧
        reply = .proveTask (.ok ())) ∨
      (∃ status, requireApp s.apps req.appId select = .error status ∧ s' = s ∧
        reply = .proveTask (.error status)))) ∨
    (∃ appId taskId select, event = .getProvingResult appId taskId select ∧
      ((∃ proof, s.outputs ⟨appId, taskId⟩ = some proof ∧
        s' = { s with outputs := Function.update s.outputs ⟨appId, taskId⟩ none } ∧
        reply = .proof (.ok (some proof))) ∨
      (s.outputs ⟨appId, taskId⟩ = none ∧ s' = s ∧
        ((select = .ok () ∧ reply = .proof (.ok (s.proofs ⟨appId, taskId⟩))) ∨
          ∃ e, select = .error e ∧ reply = .proof (.error (dbReadError e)))))) ∨
    (∃ key result next rest, event = .proved key result ∧ s.storing = none ∧
      s.tasks = next :: rest ∧ next.key = key ∧ reply = .queue ∧
      ((∃ proof, result = some proof ∧ s' = { s with
          tasks := rest
          outputs := Function.update s.outputs key (some proof)
          storing := some (key, proof) }) ∨
        (result = none ∧ s' = { s with tasks := rest }))) ∨
    (∃ ok key proof, event = .stored ok ∧ s.storing = some (key, proof) ∧ reply = .queue ∧
      s' = { s with
        proofs := if ok then Function.update s.proofs key (some proof) else s.proofs
        storing := none }) := by
  cases event with
  | proveTask req select =>
    refine .inl ⟨req, select, rfl, ?_⟩
    simp only [step, proveTask] at stepped
    cases found : requireApp s.apps req.appId select with
    | error status =>
      simp only [found, Except.map, Option.some.injEq, Prod.mk.injEq] at stepped
      exact .inr ⟨status, rfl, stepped.1.symm, stepped.2.symm⟩
    | ok app =>
      simp only [found, Except.map, Option.some.injEq, Prod.mk.injEq] at stepped
      exact .inl ⟨app, rfl, stepped.1.symm, stepped.2.symm⟩
  | getProvingResult appId taskId select =>
    refine .inr (.inl ⟨appId, taskId, select, rfl, ?_⟩)
    simp only [step, getProvingResult] at stepped
    cases hit : s.outputs ⟨appId, taskId⟩ with
    | some proof =>
      simp only [hit, Option.some.injEq, Prod.mk.injEq] at stepped
      exact .inl ⟨proof, rfl, stepped.1.symm, stepped.2.symm⟩
    | none =>
      cases select with
      | error e =>
        simp only [hit, Option.some.injEq, Prod.mk.injEq] at stepped
        exact .inr ⟨rfl, stepped.1.symm, .inr ⟨e, rfl, stepped.2.symm⟩⟩
      | ok u =>
        simp only [hit, Option.some.injEq, Prod.mk.injEq] at stepped
        exact .inr ⟨rfl, stepped.1.symm, .inl ⟨rfl, stepped.2.symm⟩⟩
  | proved key result =>
    refine .inr (.inr (.inl ?_))
    simp only [step, proved] at stepped
    split at stepped
    · rename_i next rest idle queued
      split_ifs at stepped with head
      · cases result with
        | none =>
          simp only [Option.map_some', Option.some.injEq, Prod.mk.injEq] at stepped
          exact ⟨key, none, next, rest, rfl, idle, queued, head, stepped.2.symm, .inr ⟨rfl, stepped.1.symm⟩⟩
        | some proof =>
          simp only [Option.map_some', Option.some.injEq, Prod.mk.injEq] at stepped
          exact ⟨key, some proof, next, rest, rfl, idle, queued, head, stepped.2.symm,
            .inl ⟨proof, rfl, stepped.1.symm⟩⟩
      · cases stepped
    · cases stepped
  | stored ok =>
    refine .inr (.inr (.inr ?_))
    simp only [step, stored] at stepped
    split at stepped
    · rename_i key proof writing
      simp only [Option.map_some', Option.some.injEq, Prod.mk.injEq] at stepped
      exact ⟨ok, key, proof, rfl, writing, stepped.2.symm, stepped.1.symm⟩
    · cases stepped

/-- A `ProveTask` leaves the queue as it was or appends a task, and touches no write. -/
theorem proveTask_tasks {req : ProveTaskRequest} {select : Except (List Char) Unit}
    (stepped : s.step (.proveTask req select) = some (s', reply)) :
    (s'.tasks = s.tasks ∨ ∃ task, s'.tasks = s.tasks ++ [task]) ∧ s'.storing = s.storing := by
  rcases step_cases stepped with ⟨_, _, same, ⟨_, _, rfl, -⟩ | ⟨_, _, rfl, -⟩⟩ |
    ⟨_, _, _, stuck, -⟩ | ⟨_, _, _, _, stuck, -⟩ | ⟨_, _, _, stuck, -⟩
  · exact ⟨.inr ⟨_, rfl⟩, rfl⟩
  · exact ⟨.inl rfl, rfl⟩
  all_goals cases stuck

/-- A lookup leaves the queue and the awaited write as they were. -/
theorem getProvingResult_tasks {appId taskId : List Char} {select : Except (List Char) Unit}
    (stepped : s.step (.getProvingResult appId taskId select) = some (s', reply)) :
    s'.tasks = s.tasks ∧ s'.storing = s.storing := by
  rcases step_cases stepped with ⟨_, _, stuck, -⟩ | ⟨_, _, _, -, ⟨_, -, rfl, -⟩ | ⟨-, rfl, -⟩⟩ |
    ⟨_, _, _, _, stuck, -⟩ | ⟨_, _, _, stuck, -⟩
  · cases stuck
  · exact ⟨rfl, rfl⟩
  · exact ⟨rfl, rfl⟩
  all_goals cases stuck

/-- The end of a database write leaves the queue as it was, with no write awaited. -/
theorem stored_tasks {ok : Bool} (written : s.stored ok = some s') :
    s'.tasks = s.tasks ∧ s'.storing = none := by
  unfold stored at written
  split at written
  · cases written
    exact ⟨rfl, rfl⟩
  · cases written

/-! ## A lookup after the database write -/

/-- While the queue awaits a database write, memory holds that proof for its key, or nothing
once a lookup has taken it. -/
def Awaiting (s : Service) : Prop :=
  ∀ key proof, s.storing = some (key, proof) → s.outputs key = none ∨ s.outputs key = some proof

theorem Awaiting.step (holds : Awaiting s) (stepped : s.step event = some (s', reply)) :
    Awaiting s' := by
  intro key proof writing
  rcases step_cases stepped with
    ⟨_, _, rfl, ⟨_, _, rfl, -⟩ | ⟨_, _, rfl, -⟩⟩ |
    ⟨appId, taskId, _, rfl, ⟨_, _, rfl, -⟩ | ⟨_, rfl, -⟩⟩ |
    ⟨next, _, _, _, rfl, -, -, -, -, ⟨_, rfl, rfl⟩ | ⟨rfl, rfl⟩⟩ |
    ⟨_, _, _, rfl, -, -, rfl⟩
  · exact holds key proof writing
  · exact holds key proof writing
  · by_cases same : key = ⟨appId, taskId⟩
    · subst same
      exact .inl (by simp)
    · simpa [Function.update_noteq same] using holds key proof writing
  · exact holds key proof writing
  · obtain ⟨rfl, rfl⟩ := Prod.mk.inj (Option.some.inj writing)
    exact .inr (by simp)
  · exact holds key proof writing
  · cases writing

theorem reachable_awaiting (reachable : Reachable s) : Awaiting s := by
  induction reachable with
  | init => intro key proof writing; cases writing
  | step _ stepped holds => exact holds.step stepped

/-- The table holds the proof for the key, memory holds it or nothing, and the queue is not
writing another one for the key. -/
structure Settled (key : ProvingKey) (proof : List UInt8) (s : Service) : Prop where
  stored : s.proofs key = some proof
  memory : s.outputs key = none ∨ s.outputs key = some proof
  writing : ∀ other, s.storing = some (key, other) → other = proof

/-- What a lookup of a settled key answers: the proof, or the error of a failed read. -/
def SettledAnswer (proof : List UInt8) (select : Except (List Char) Unit) (answer : Reply) : Prop :=
  answer = .proof (.ok (some proof)) ∨ ∃ e, select = .error e ∧ answer = .proof (.error (dbReadError e))

section Settled

variable {key : ProvingKey} {proof : List UInt8}

/-- Unless the key completes again, a step keeps it settled, and a lookup of it returns the
proof, unless its read of the table fails. -/
theorem Settled.step (settled : Settled key proof s) (stepped : s.step event = some (s', reply))
    (again : ∀ other, event ≠ .proved key (some other)) :
    Settled key proof s' ∧
      ∀ select, event = .getProvingResult key.appId key.taskId select → SettledAnswer proof select reply := by
  rcases step_cases stepped with
    ⟨_, _, rfl, ⟨_, _, rfl, rfl⟩ | ⟨_, _, rfl, rfl⟩⟩ |
    ⟨appId, taskId, select, rfl, ⟨taken, hit, rfl, rfl⟩ | ⟨miss, rfl, ⟨rfl, rfl⟩ | ⟨e, rfl, rfl⟩⟩⟩ |
    ⟨finishedKey, result, _, _, rfl, idle, -, -, rfl, ⟨other, rfl, rfl⟩ | ⟨rfl, rfl⟩⟩ |
    ⟨ok, written, other, rfl, writing, rfl, rfl⟩
  · exact ⟨⟨settled.stored, settled.memory, settled.writing⟩, by simp⟩
  · exact ⟨settled, by simp⟩
  · by_cases same : key = ⟨appId, taskId⟩
    · subst same
      have taken : taken = proof := by simpa [hit] using settled.memory
      exact ⟨⟨settled.stored, .inl (by simp), settled.writing⟩, fun _ _ => .inl (by rw [taken])⟩
    · refine ⟨⟨settled.stored, ?_, settled.writing⟩, fun _ looked => ?_⟩
      · simpa [Function.update_noteq same] using settled.memory
      · cases looked
        exact absurd rfl same
  · refine ⟨settled, fun _ looked => .inl ?_⟩
    cases looked
    simpa [miss] using settled.stored
  · refine ⟨settled, fun _ looked => .inr ⟨e, ?_, rfl⟩⟩
    cases looked
    rfl
  · have fresh : finishedKey ≠ key := fun same => again other (by rw [same])
    refine ⟨⟨settled.stored, ?_, fun _ writing => ?_⟩, by simp⟩
    · simpa [Function.update_noteq (Ne.symm fresh)] using settled.memory
    · exact absurd (Prod.mk.inj (Option.some.inj writing)).1 fresh
  · exact ⟨⟨settled.stored, settled.memory, fun _ writing => by simp [idle] at writing⟩, by simp⟩
  · refine ⟨⟨?_, settled.memory, fun _ none => by cases none⟩, by simp⟩
    by_cases same : written = key
    · subst same
      cases ok <;> simp [settled.stored, settled.writing other writing]
    · cases ok <;> simp [Function.update_noteq (Ne.symm same), settled.stored]

/-- Over a run in which the key does not complete again, every lookup of it returns the
proof, unless its read of the table fails. -/
theorem Settled.run (settled : Settled key proof s) (steps : Steps s trace s')
    (again : ∀ other answer, (Event.proved key (some other), answer) ∉ trace) :
    ∀ select answer, (Event.getProvingResult key.appId key.taskId select, answer) ∈ trace →
      SettledAnswer proof select answer := by
  induction steps with
  | nil => simp
  | cons stepped _ ih =>
    obtain ⟨next, answered⟩ := settled.step stepped fun other same =>
      again other _ (by rw [← same]; exact List.mem_cons_self _ _)
    intro select answer member
    rcases List.mem_cons.mp member with head | later
    · obtain ⟨rfl, rfl⟩ := Prod.mk.inj head
      exact answered select rfl
    · exact ih next (fun other answer' absent => again other answer' (.tail _ absent)) select answer
        later

end Settled

/-- Once the queue's database write of a proof has succeeded, every later lookup of its key
returns that proof, until a task of the same key completes again, except a lookup whose read
of the table fails, which is answered with that error. -/
theorem lookups_after_store {key : ProvingKey} {proof : List UInt8}
    (reachable : Reachable s) (writing : s.storing = some (key, proof))
    (steps : Steps s ((.stored true, .queue) :: trace) s')
    (again : ∀ other answer, (Event.proved key (some other), answer) ∉ trace) :
    ∀ select answer, (Event.getProvingResult key.appId key.taskId select, answer) ∈ trace →
      answer = .proof (.ok (some proof)) ∨
        ∃ e, select = .error e ∧ answer = .proof (.error (dbReadError e)) := by
  cases steps with
  | cons stepped rest =>
    rcases step_cases stepped with ⟨_, _, stuck, -⟩ | ⟨_, _, _, stuck, -⟩ | ⟨_, _, _, _, stuck, -⟩ |
      ⟨ok, written, other, same, writing', -, rfl⟩
    · cases stuck
    · cases stuck
    · cases stuck
    obtain ⟨sameKey, sameProof⟩ := Prod.mk.inj (Option.some.inj (writing'.symm.trans writing))
    subst written other
    cases same
    refine Settled.run ?_ rest again
    exact ⟨by simp, reachable_awaiting reachable key proof writing, fun _ none => by cases none⟩

/-- The app `ab` and a task `t` of it, proved into the bytes `[7]`. -/
def abKey : ProvingKey := ⟨"ab".toList, "t".toList⟩

/-- A `ProveTask` for `abKey` on the CPU, with no inputs. -/
def abRequest : ProveTaskRequest := ⟨abKey.appId, abKey.taskId, none, none⟩

/-- Two lookups after the write, the second of whose reads fails. -/
def abLookups : List (Event × Reply) :=
  [(.getProvingResult abKey.appId abKey.taskId (.ok ()), .proof (.ok (some [7]))),
    (.getProvingResult abKey.appId abKey.taskId (.error "locked".toList),
      .proof (.error (dbReadError "locked".toList)))]

theorem lookups_after_store_ab :
    ∃ s s', Reachable s ∧ s.storing = some (abKey, [7]) ∧
      Steps s ((.stored true, .queue) :: abLookups) s' ∧
      (∀ other answer, (Event.proved abKey (some other), answer) ∉ abLookups) ∧
      ∀ select answer, (Event.getProvingResult abKey.appId abKey.taskId select, answer) ∈ abLookups →
        answer = .proof (.ok (some [7])) ∨
          ∃ e, select = .error e ∧ answer = .proof (.error (dbReadError e)) := by
  obtain ⟨s, s', proving, writing, looking⟩ : ∃ s s', Steps (init ["ab".toList] fun _ => none)
      [(.proveTask abRequest (.ok ()), .proveTask (.ok ())),
        (.proved abKey (some [7]), .queue)] s ∧ s.storing = some (abKey, [7]) ∧
      Steps s ((.stored true, .queue) :: abLookups) s' :=
    ⟨_, _, .cons rfl (.cons rfl (.nil _)), rfl, .cons rfl (.cons rfl (.cons rfl (.nil _)))⟩
  have reachable := proving.reachable (.init _ _)
  have again : ∀ other answer, (Event.proved abKey (some other), answer) ∉ abLookups := by
    simp [abLookups]
  exact ⟨s, s', reachable, writing, looking, again,
    lookups_after_store reachable writing looking again⟩

/-- A lookup takes the proof out of memory, so until the database write lands the next lookup
of the same key finds nothing: a lookup that returned a proof is not followed by lookups that
return it again. -/
theorem later_lookup_misses :
    ¬ ∀ (apps : List (List Char)) (proofs : ProvingKey → Option (List UInt8))
      (trace : List (Event × Reply)) (s : Service),
      Steps (init apps proofs) trace s → ∀ appId taskId select select' proof answer before middle after,
        trace = before ++ (.getProvingResult appId taskId select, .proof (.ok (some proof))) ::
          middle ++ (.getProvingResult appId taskId select', answer) :: after →
        select' = .ok () → answer = .proof (.ok (some proof)) := by
  intro lookupsRepeat
  obtain ⟨s, steps⟩ : ∃ s, Steps (init ["ab".toList] fun _ => none)
      [(.proveTask abRequest (.ok ()), .proveTask (.ok ())), (.proved abKey (some [7]), .queue),
        (.getProvingResult abKey.appId abKey.taskId (.ok ()), .proof (.ok (some [7]))),
        (.getProvingResult abKey.appId abKey.taskId (.ok ()), .proof (.ok none)),
        (.stored true, .queue),
        (.getProvingResult abKey.appId abKey.taskId (.ok ()), .proof (.ok (some [7])))] s :=
    ⟨_, .cons rfl (.cons rfl (.cons rfl (.cons rfl (.cons rfl (.cons rfl (.nil _))))))⟩
  cases lookupsRepeat _ _ _ s steps abKey.appId abKey.taskId (.ok ()) (.ok ()) [7] (.proof (.ok none))
    [_, _] [] [_, _] rfl rfl

/-! ## Which key a result is found under -/

/-- The key is somewhere in the service: queued, in memory, being written, or in the table. -/
def Holds (s : Service) (key : ProvingKey) : Prop :=
  key ∈ s.tasks.map ProvingTask.key ∨ (s.outputs key).isSome ∨
    (∃ proof, s.storing = some (key, proof)) ∨ (s.proofs key).isSome

/-- `ProveTask` accepted a task under the key. -/
def Accepted (key : ProvingKey) : Event × Reply → Prop
  | (.proveTask req _, .proveTask (.ok ())) => req.appId = key.appId ∧ req.taskId = key.taskId
  | _ => False

section Holds

variable {key : ProvingKey}

/-- A key held after a step was held before it, or the step accepted a task under it. -/
theorem Holds.back (stepped : s.step event = some (s', reply)) (held : Holds s' key) :
    Holds s key ∨ Accepted key (event, reply) := by
  rcases step_cases stepped with
    ⟨req, _, rfl, ⟨_, _, rfl, rfl⟩ | ⟨_, _, rfl, rfl⟩⟩ |
    ⟨appId, taskId, _, rfl, ⟨taken, hit, rfl, rfl⟩ | ⟨_, rfl, -⟩⟩ |
    ⟨_, _, next, rest, rfl, idle, queued, head, rfl, ⟨proof, rfl, rfl⟩ | ⟨rfl, rfl⟩⟩ |
    ⟨ok, written, proof, rfl, writing, rfl, rfl⟩
  · rcases held with member | held
    · simp only [List.map_append, List.map_cons, List.map_nil, List.mem_append,
        List.mem_singleton] at member
      rcases member with old | rfl
      · exact .inl (.inl old)
      · exact .inr ⟨rfl, rfl⟩
    · exact .inl (.inr held)
  · exact .inl held
  · refine .inl ?_
    by_cases same : key = ⟨appId, taskId⟩
    · subst same
      exact .inr (.inl (by simp [hit]))
    · simpa [Holds, Function.update_noteq same] using held
  · exact .inl held
  · refine .inl ?_
    by_cases same : key = next.key
    · subst same
      exact .inl (by simp [queued])
    · rw [← head] at held
      simp only [Holds, Function.update_noteq same, Option.some.injEq, Prod.mk.injEq] at held
      rcases held with member | hit | ⟨_, stuck, -⟩ | stored
      · exact .inl (by simp [queued, member])
      · exact .inr (.inl hit)
      · exact absurd stuck.symm same
      · exact .inr (.inr (.inr stored))
  · refine .inl ?_
    rcases held with member | held
    · exact .inl (by simp [queued, member])
    · exact .inr held
  · refine .inl ?_
    by_cases same : key = written
    · subst same
      exact .inr (.inr (.inl ⟨proof, writing⟩))
    · have unchanged : (if ok then Function.update s.proofs written (some proof) else s.proofs) key =
          s.proofs key := by
        cases ok <;> simp [Function.update_noteq same]
      simp only [Holds, unchanged] at held
      rcases held with member | hit | ⟨_, stuck⟩ | stored
      · exact .inl member
      · exact .inr (.inl hit)
      · cases stuck
      · exact .inr (.inr (.inr stored))

theorem Holds.steps (steps : Steps s trace s') (held : Holds s' key) :
    Holds s key ∨ ∃ entry ∈ trace, Accepted key entry := by
  induction steps with
  | nil => exact .inl held
  | cons stepped _ ih =>
    rcases ih held with earlier | ⟨entry, member, accepted⟩
    · rcases Holds.back stepped earlier with before | now
      · exact .inl before
      · exact .inr ⟨_, List.mem_cons_self _ _, now⟩
    · exact .inr ⟨entry, .tail _ member, accepted⟩

/-- A lookup finds a proof only for a key the service holds. -/
theorem Holds.of_found {appId taskId : List Char} {select : Except (List Char) Unit}
    {proof : List UInt8}
    (stepped : s.step (.getProvingResult appId taskId select) = some (s', .proof (.ok (some proof)))) :
    Holds s ⟨appId, taskId⟩ := by
  rcases step_cases stepped with ⟨_, _, stuck, -⟩ |
    ⟨_, _, _, same, ⟨_, hit, -⟩ | ⟨-, -, ⟨-, answer⟩ | ⟨_, -, answer⟩⟩⟩ |
    ⟨_, _, _, _, stuck, -⟩ | ⟨_, _, _, stuck, -⟩
  · cases stuck
  · cases same
    exact .inr (.inl (by simp [hit]))
  · cases same
    have stored := Except.ok.inj (Reply.proof.inj answer)
    exact .inr (.inr (.inr (by rw [← stored]; rfl)))
  · cases answer
  · cases stuck
  · cases stuck

end Holds

/-- A lookup under an app id and a task id finds a proof only if a task was accepted under
exactly that app id and task id, or the table held a proof for them when the service started:
results are keyed on the app id as it was sent. -/
theorem found_only_if_submitted {apps : List (List Char)} {proofs : ProvingKey → Option (List UInt8)}
    {appId taskId : List Char} {select : Except (List Char) Unit} {proof : List UInt8}
    (steps : Steps (init apps proofs) trace s)
    (found : (Event.getProvingResult appId taskId select, Reply.proof (.ok (some proof))) ∈ trace) :
    (∃ req select', req.appId = appId ∧ req.taskId = taskId ∧
      (Event.proveTask req select', Reply.proveTask (.ok ())) ∈ trace) ∨
    (proofs ⟨appId, taskId⟩).isSome := by
  obtain ⟨before, after, rfl⟩ := List.append_of_mem found
  obtain ⟨mid, early, late⟩ := steps.split
  cases late with
  | cons stepped _ =>
    rcases Holds.steps early (Holds.of_found stepped) with fresh | ⟨entry, member, accepted⟩
    · exact .inr (by simpa [Holds, init] using fresh)
    · refine .inl ?_
      match entry, accepted with
      | (.proveTask req select', .proveTask (.ok ())), ⟨sameApp, sameTask⟩ =>
        exact ⟨req, select', sameApp, sameTask, List.mem_append_left _ member⟩

theorem found_only_if_submitted_ab :
    ∃ s, Steps (init ["ab".toList] fun _ => none) [(.proveTask abRequest (.ok ()), .proveTask (.ok ())),
        (.proved abKey (some [7]), .queue),
        (.getProvingResult abKey.appId abKey.taskId (.ok ()), .proof (.ok (some [7])))] s ∧
      (Event.getProvingResult abKey.appId abKey.taskId (.ok ()), Reply.proof (.ok (some [7]))) ∈
        [(.proveTask abRequest (.ok ()), .proveTask (.ok ())), (.proved abKey (some [7]), .queue),
          (.getProvingResult abKey.appId abKey.taskId (.ok ()), .proof (.ok (some [7])))] ∧
      ((∃ req select', req.appId = abKey.appId ∧ req.taskId = abKey.taskId ∧
        (Event.proveTask req select', Reply.proveTask (.ok ())) ∈
          [(.proveTask abRequest (.ok ()), .proveTask (.ok ())), (.proved abKey (some [7]), .queue),
            (.getProvingResult abKey.appId abKey.taskId (.ok ()), .proof (.ok (some [7])))]) ∨
        ((fun _ => none : ProvingKey → Option (List UInt8)) ⟨abKey.appId, abKey.taskId⟩).isSome) := by
  obtain ⟨s, steps⟩ : ∃ s, Steps (init ["ab".toList] fun _ => none)
      [(.proveTask abRequest (.ok ()), .proveTask (.ok ())), (.proved abKey (some [7]), .queue),
        (.getProvingResult abKey.appId abKey.taskId (.ok ()), .proof (.ok (some [7])))] s :=
    ⟨_, .cons rfl (.cons rfl (.cons rfl (.nil _)))⟩
  have found : (Event.getProvingResult abKey.appId abKey.taskId (.ok ()), Reply.proof (.ok (some [7]))) ∈
      [(.proveTask abRequest (.ok ()), .proveTask (.ok ())), (.proved abKey (some [7]), .queue),
        (.getProvingResult abKey.appId abKey.taskId (.ok ()), .proof (.ok (some [7])))] := by simp
  exact ⟨s, steps, found, found_only_if_submitted steps found⟩

/-! ## The order in which tasks finish -/

/-- The keys `prove_task` queued in a run, in order. -/
def queued : List (Event × Reply) → List ProvingKey
  | [] => []
  | (.proveTask req _, .proveTask (.ok ())) :: rest => ⟨req.appId, req.taskId⟩ :: queued rest
  | _ :: rest => queued rest

/-- The keys of the tasks the queue finished in a run, proved or failed, in order. -/
def finished : List (Event × Reply) → List ProvingKey
  | [] => []
  | (.proved key _, _) :: rest => key :: finished rest
  | _ :: rest => finished rest

/-- Over a run, the tasks waiting at the start and those queued during it are the tasks
finished during it, in order, followed by those still waiting. -/
theorem Steps.tasks (steps : Steps s trace s') :
    s.tasks.map ProvingTask.key ++ queued trace = finished trace ++ s'.tasks.map ProvingTask.key := by
  induction steps with
  | nil => simp [queued, finished]
  | cons stepped _ ih =>
    rcases step_cases stepped with
      ⟨_, _, rfl, ⟨_, _, rfl, rfl⟩ | ⟨_, _, rfl, rfl⟩⟩ |
      ⟨_, _, _, rfl, ⟨_, _, rfl, rfl⟩ | ⟨_, rfl, ⟨-, rfl⟩ | ⟨_, -, rfl⟩⟩⟩ |
      ⟨_, _, _, _, rfl, -, front, rfl, rfl, ⟨_, rfl, rfl⟩ | ⟨rfl, rfl⟩⟩ |
      ⟨_, _, _, rfl, -, rfl, rfl⟩
    iterate 5 simpa [queued, finished] using ih
    iterate 2 simpa [queued, finished, front] using ih
    simpa [queued, finished] using ih

/-- The queue finishes tasks, proved or failed, one at a time in the order `prove_task` queued
them: in every run of a freshly started service the tasks queued so far are the tasks finished,
in order, followed by those still waiting. A task that never finishes holds back every task
queued after it. -/
theorem queued_eq_finished_append {apps : List (List Char)} {proofs : ProvingKey → Option (List UInt8)}
    (steps : Steps (init apps proofs) trace s) :
    queued trace = finished trace ++ s.tasks.map ProvingTask.key := by
  simpa [init] using steps.tasks

/-- Two tasks of the app `ab` queued, the first failed. -/
def twoTasks : List (Event × Reply) :=
  [(.proveTask ⟨"ab".toList, "t".toList, none, none⟩ (.ok ()), .proveTask (.ok ())),
    (.proveTask ⟨"ab".toList, "u".toList, none, some true⟩ (.ok ()), .proveTask (.ok ())),
    (.proved abKey none, .queue)]

theorem queued_eq_finished_append_two_tasks :
    ∃ s, Steps (init ["ab".toList] fun _ => none) twoTasks s ∧
      queued twoTasks = finished twoTasks ++ s.tasks.map ProvingTask.key := by
  obtain ⟨s, steps⟩ : ∃ s, Steps (init ["ab".toList] fun _ => none) twoTasks s :=
    ⟨_, .cons rfl (.cons rfl (.cons rfl (.nil _)))⟩
  exact ⟨s, steps, queued_eq_finished_append steps⟩

/-- `get_app` resolves `0xab` and `ab` to the same app, but a task accepted under `0xab` is
stored under `0xab`: with its proof in the table, a lookup under `ab` finds nothing. -/
theorem prefixed_task_missed_unprefixed :
    getApp ["ab".toList] "0xab".toList (.ok ()) = .ok (some "ab".toList) ∧
      getApp ["ab".toList] "ab".toList (.ok ()) = .ok (some "ab".toList) ∧
      ∃ s, Steps (init ["ab".toList] fun _ => none)
        [(.proveTask ⟨"0xab".toList, "t".toList, none, none⟩ (.ok ()), .proveTask (.ok ())),
          (.proved ⟨"0xab".toList, "t".toList⟩ (some [7]), .queue), (.stored true, .queue),
          (.getProvingResult "ab".toList "t".toList (.ok ()), .proof (.ok none))] s ∧
        s.proofs ⟨"0xab".toList, "t".toList⟩ = some [7] :=
  ⟨by decide, by decide, _, .cons rfl (.cons rfl (.cons rfl (.cons rfl (.nil _)))), rfl⟩

end Service

end ProvingService.Results
