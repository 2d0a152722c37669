import ProvingService.Pipeline.Partition

/-!
# Every run ends

Each thread of a run only moves work forward. The emulator sends `total` chunks and one
`EmulatorComplete`. The gateway reads every message once, and sends at most one message for it.
A prover turns one request into at most two replies. A slot of the proof tree is made only for
a chunk, and leaves only when a pair is handed out to be combined. A weight on the channels and
the tree counts this work: every step lowers it, so no run from the start takes more steps than
the start weighs, `8 * total + 2`, however the threads interleave.
-/

set_option autoImplicit false

namespace ProvingService.Pipeline

variable {P E : Type}

/-- The steps a message to the gateway from the emulator can still cause: a chunk request is
read, sent on and taken, and both replies are read, and its slot is merged once. -/
def emulatorWeight : GatewayMsg P E → Nat
  | .riscv (.request _) => 7
  | _ => 1

/-- The steps a message to the provers can still cause: taken, and both replies read. -/
def workerWeight : GatewayMsg P E → Nat
  | .riscv (.request _) | .combine (.request _) => 3
  | _ => 1

/-- The weight of a channel: the weights of its messages, summed. -/
def channelWeight (weight : GatewayMsg P E → Nat) : List (GatewayMsg P E) → Nat
  | [] => 0
  | msg :: rest => weight msg + channelWeight weight rest

@[simp] theorem channelWeight_nil (weight : GatewayMsg P E → Nat) : channelWeight weight [] = 0 := rfl

@[simp] theorem channelWeight_cons (weight : GatewayMsg P E → Nat) (msg : GatewayMsg P E)
    (rest : List (GatewayMsg P E)) :
    channelWeight weight (msg :: rest) = weight msg + channelWeight weight rest := rfl

@[simp] theorem channelWeight_append (weight : GatewayMsg P E → Nat) (front back : List (GatewayMsg P E)) :
    channelWeight weight (front ++ back) = channelWeight weight front + channelWeight weight back := by
  induction front with
  | nil => simp
  | cons msg front ih => simp [ih, Nat.add_assoc]

/-- A bound on the steps a run of `total` chunks can still take. -/
def potential (total : Nat) (s : Pipeline P E) : Nat :=
  8 * (total - s.emitted) + (if s.emulatorDone then 0 else 2) +
    channelWeight emulatorWeight s.emulatorChannel + channelWeight workerWeight s.toWorkers +
    s.toGateway.length + 3 * s.entries.length

theorem potential_init (total : Nat) : potential total (init : Pipeline P E) = 8 * total + 2 := by
  simp [potential, init, entries, GatewayHandler.new]

/-- `steps` steps of a relation from one state to another: `Relation.ReflTransGen`, counted. -/
inductive Counted {α : Type} (r : α → α → Prop) : Nat → α → α → Prop
  | refl {a : α} : Counted r 0 a a
  | tail {steps : Nat} {a b c : α} : Counted r steps a b → r b c → Counted r (steps + 1) a c

theorem Counted.head {α : Type} {r : α → α → Prop} {steps : Nat} {a b c : α} (first : r a b)
    (rest : Counted r steps b c) : Counted r (steps + 1) a c := by
  induction rest with
  | refl => exact .tail .refl first
  | tail _ last ih => exact .tail (ih first) last

theorem Counted.reflTransGen {α : Type} {r : α → α → Prop} {steps : Nat} {a b : α}
    (run : Counted r steps a b) : Relation.ReflTransGen r a b := by
  induction run with
  | refl => exact .refl
  | tail _ last ih => exact ih.tail last

/-- A run of turns is a counted run of the pipeline, one step a turn. -/
theorem Counted.of_runTurns {total combineSize : Nat} {machines : Machines P E} :
    ∀ {s s' : Pipeline P E} {turns : List Turn},
      runTurns total combineSize machines s turns = some s' →
        Counted (Step total combineSize machines) turns.length s s'
  | _, _, [], ran => by
    cases ran
    exact .refl
  | _, _, _ :: _, ran => by
    obtain ⟨_, moved, rest⟩ := Option.bind_eq_some.mp ran
    exact .head (turn_step total combineSize machines moved) (Counted.of_runTurns rest)

section Steps

variable {total combineSize : Nat} {machines : Machines P E} {s s' : Pipeline P E}

/-- Every step of a state that keeps the invariant lowers the weight. -/
theorem Inv.potential_lt (holds : Inv s) (step : Step total combineSize machines s s') :
    potential total s' < potential total s := by
  cases step with
  | emit idle below =>
    simp [potential, idle, entries, emulatorWeight]
    omega
  | emulatorComplete idle done =>
    simp [potential, idle, entries, emulatorWeight]
    omega
  | gatewayEmulator running channel handled =>
    rcases GatewayLoop.onEmulatorMsg_cases (holds.running running) handled with
      ⟨req, tree, rfl, made, rfl, rfl⟩ | ⟨rfl, rfl, rfl⟩
    · have grown := ProofTree.initNode_length made
      simp [potential, afterGateway, entries, channel, grown, emulatorWeight, workerWeight]
      omega
    · simp [potential, afterGateway, entries, channel, emulatorWeight]
  | @gatewayWorker msg _ _ _ running channel inbox handled =>
    rcases GatewayLoop.onWorkerMsg_cases (holds.running running) handled with
      ⟨rfl, rfl, rfl⟩ | ⟨proof, rfl, rfl, rfl⟩ | ⟨chunkIndex, proof, tree, isResponse, rfl, acted⟩
    · simp [potential, afterGateway, inbox, entries]
    · simp [potential, afterGateway, inbox, entries, GatewayHandler.setEmbedProof]
    · have answers : msg.work = some (chunkIndex, proof.range) := by
        rcases isResponse with rfl | rfl <;> rfl
      rcases acted with ⟨set, rfl⟩ | ⟨first, second, set, rfl⟩
      · obtain ⟨before, proofs, after, split, outcome, -⟩ :=
          holds.setProof_outcome channel inbox answers set
        have counted := outcome.length_add.1
        have sized := congrArg List.length split
        simp [potential, afterGateway, inbox, entries] at counted sized ⊢
        omega
      · obtain ⟨before, proofs, after, split, outcome, -⟩ :=
          holds.setProof_outcome channel inbox answers set
        have counted := outcome.length_add.1
        have sized := congrArg List.length split
        simp [potential, afterGateway, inbox, entries, workerWeight] at counted sized ⊢
        omega
  | prover taken handled =>
    rcases Prover.handle_cases handled with
      ⟨req, rfl, rfl, -⟩ | ⟨req, res, rfl, -, ⟨rfl, -⟩ | ⟨-, proof, rfl, -⟩⟩ | ⟨rfl, rfl, -⟩ <;>
    simp [potential, taken, entries, workerWeight] <;> omega

/-- A run from a reachable state lowers the weight by at least its length. -/
theorem Counted.potential_add {steps : Nat} {start : Pipeline P E}
    (reachable : Reachable total combineSize machines start)
    (run : Counted (Step total combineSize machines) steps start s) :
    Reachable total combineSize machines s ∧ potential total s + steps ≤ potential total start := by
  induction run with
  | refl => exact ⟨reachable, le_refl _⟩
  | tail _ step ih =>
    obtain ⟨reached, bounded⟩ := ih reachable
    have lowered := (reachable_inv reached).potential_lt step
    exact ⟨reached.step step, by omega⟩

/-- Whatever the machines and however the threads interleave, a run from the start takes at
most `8 * total + 2` steps: every run comes to rest. -/
theorem run_length_le {steps : Nat} (run : Counted (Step total combineSize machines) steps init s) :
    steps ≤ 8 * total + 2 := by
  have bounded := (run.potential_add .init).2
  rw [potential_init] at bounded
  omega

end Steps

/-- The run of two chunks in which the gateway takes the fast path, counted against the
bound: it ends with the signal fired and nothing left to do for the emulator or the provers. -/
theorem run_length_le_two_chunks :
    ∃ s : Pipeline (Nat × Nat) (Nat × Nat), runTurns 2 2 Machines.ranges init twoChunkTurns = some s ∧
      s.emulatorDone = true ∧ s.gatewayRunning = false ∧ s.toWorkers = [] ∧
      s.completion = some (some (0, 1)) ∧ twoChunkTurns.length ≤ 8 * 2 + 2 := by
  obtain ⟨s, run, done, stopped, idle, fired⟩ : ∃ s : Pipeline (Nat × Nat) (Nat × Nat),
      runTurns 2 2 Machines.ranges init twoChunkTurns = some s ∧ s.emulatorDone = true ∧
      s.gatewayRunning = false ∧ s.toWorkers = [] ∧ s.completion = some (some (0, 1)) :=
    ⟨_, rfl, rfl, rfl, rfl, rfl⟩
  exact ⟨s, run, done, stopped, idle, fired, run_length_le (Counted.of_runTurns run)⟩

end ProvingService.Pipeline
