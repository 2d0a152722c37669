import ProvingService.ProofTree.Basic
import Mathlib.Data.List.Chain

/-!
# Reduction laws of the proof tree

Over every sequence of calls in which `init_node` gets an index that is not live and
`set_proof` one that is: no two neighbouring slots are both proved, and every pair handed out
removes exactly one slot.
-/

set_option autoImplicit false

namespace ProvingService

namespace ProofTree

variable {P : Type}

/-- A call on the tree. -/
inductive TreeCall (P : Type) where
  | initNode (index : Nat)
  | setProof (index : Nat) (proof : IndexedProof P)

def TreeCall.isInit : TreeCall P → Bool
  | .initNode _ => true
  | .setProof _ _ => false

/-- One call with its precondition met: the tree after it and the pairs it handed out (zero
or one); `none` if the precondition fails or the call panics. -/
def TreeCall.apply (t : ProofTree P) : TreeCall P → Option (ProofTree P × Nat)
  | .initNode index =>
    if index ∈ t.tree.keys then none
    else match t.initNode index with
      | .ok t' => some (t', 0)
      | .error _ => none
  | .setProof index proof =>
    if index ∈ t.tree.keys then
      match t.setProof index proof with
      | .ok (t', result) => some (t', if result.isSome then 1 else 0)
      | .error _ => none
    else none

/-- Runs the calls in order, adding up the pairs handed out; `none` once a call's
precondition fails. -/
def runCalls : ProofTree P → List (TreeCall P) → Option (ProofTree P × Nat)
  | t, [] => some (t, 0)
  | t, call :: calls =>
    match call.apply t with
    | some (t', pairs) => (runCalls t' calls).map fun (t'', rest) => (t'', pairs + rest)
    | none => none

theorem runCalls_cons {t t'' : ProofTree P} {call : TreeCall P} {calls : List (TreeCall P)}
    {pairs : Nat} :
    runCalls t (call :: calls) = some (t'', pairs) ↔
      ∃ t' first rest, call.apply t = some (t', first) ∧
        runCalls t' calls = some (t'', rest) ∧ pairs = first + rest := by
  simp only [runCalls]
  split
  · rename_i t' first applied
    simp only [Option.map_eq_some', Prod.exists, Prod.mk.injEq, applied, Option.some.injEq]
    constructor
    · rintro ⟨t'', rest, run, rfl, rfl⟩
      exact ⟨t', first, rest, ⟨rfl, rfl⟩, run, rfl⟩
    · rintro ⟨_, _, rest, ⟨rfl, rfl⟩, run, rfl⟩
      exact ⟨_, rest, run, rfl, rfl⟩
  · rename_i unapplied
    simp [unapplied]

/-- The induction over a run, done once: what every call preserves holds at the end. -/
theorem runCalls_induction (inv : ProofTree P → Prop)
    (preserved : ∀ (t : ProofTree P) (call : TreeCall P) (t' : ProofTree P) (pairs : Nat),
      inv t → call.apply t = some (t', pairs) → inv t') :
    ∀ {t : ProofTree P} {calls t' pairs}, inv t → runCalls t calls = some (t', pairs) → inv t'
  | t, [], t', pairs, holds, run => by
    simp only [runCalls, Option.some.injEq, Prod.mk.injEq] at run
    exact run.1 ▸ holds
  | t, call :: calls, t', pairs, holds, run => by
    obtain ⟨t'', first, rest, applied, tail, -⟩ := runCalls_cons.mp run
    exact runCalls_induction inv preserved (preserved _ _ _ _ holds applied) tail

/-- What one call does, stated on the entries around its index. -/
theorem TreeCall.apply_cases {t t' : ProofTree P} {call : TreeCall P} {pairs : Nat}
    (applied : call.apply t = some (t', pairs)) :
    (∃ lower upper index, call = .initNode index ∧ pairs = 0 ∧
      t.tree.entries = lower ++ upper ∧ t'.tree.entries = lower ++ (index, .init) :: upper) ∨
    (∃ before after index node proof result, call = .setProof index proof ∧
      pairs = (if result.isSome then 1 else 0) ∧
      t.tree.entries = before ++ (index, node) :: after ∧
      SetProofOutcome index proof before after t'.tree.entries result) := by
  cases call with
  | initNode index =>
    simp only [TreeCall.apply] at applied
    split_ifs at applied with live
    obtain ⟨lower, upper, t'', split, run, entries, -⟩ := initNode_fresh live
    simp only [run, Option.some.injEq, Prod.mk.injEq] at applied
    obtain ⟨rfl, rfl⟩ := applied
    exact .inl ⟨lower, upper, index, rfl, rfl, split, entries⟩
  | setProof index proof =>
    simp only [TreeCall.apply] at applied
    split_ifs at applied with live
    obtain ⟨before, node, after, split⟩ := BTreeMap.exists_split live
    obtain ⟨t'', result, run, outcome⟩ := setProof_split proof split
    simp only [run, Option.some.injEq, Prod.mk.injEq] at applied
    obtain ⟨rfl, rfl⟩ := applied
    exact .inr ⟨before, after, index, node, proof, result, rfl, rfl, split, outcome⟩

/-! ## No two neighbouring slots are both proved -/

/-- No two neighbouring live slots are both proved, so no mergeable pair is left unpaired. -/
def NoProvedNeighbours (entries : List (Nat × ProofNode P)) : Prop :=
  entries.Chain' fun a b => a.2.isProved = false ∨ b.2.isProved = false

section Neighbours

variable {before after : List (Nat × ProofNode P)}

theorem NoProvedNeighbours.insert {slot : Nat × ProofNode P} (waiting : slot.2.isProved = false)
    (left : NoProvedNeighbours before) (right : NoProvedNeighbours after) :
    NoProvedNeighbours (before ++ slot :: after) :=
  List.chain'_append.mpr ⟨left, right.cons' fun _ _ => .inl waiting,
    fun _ _ _ head => .inr (Option.some.inj head ▸ waiting)⟩

private theorem neighbours_split (middle : List (Nat × ProofNode P))
    (holds : NoProvedNeighbours (before ++ middle ++ after)) :
    NoProvedNeighbours before ∧ NoProvedNeighbours after :=
  ⟨holds.left_of_append.left_of_append, holds.right_of_append⟩

/-- Every branch of `set_proof` keeps neighbouring slots from both being proved. -/
theorem SetProofOutcome.noProvedNeighbours {index : Nat} {proof : IndexedProof P}
    {node : ProofNode P} {entries : List (Nat × ProofNode P)}
    {result : Option (List (IndexedProof P))}
    (outcome : SetProofOutcome index proof before after entries result)
    (holds : NoProvedNeighbours (before ++ (index, node) :: after)) :
    NoProvedNeighbours entries := by
  cases outcome with
  | mergeLeft =>
    have parts := neighbours_split [_, _] (by simpa using holds)
    exact NoProvedNeighbours.insert rfl parts.1 parts.2
  | mergeRight _ =>
    have parts := neighbours_split [_, _] (by simpa using holds)
    exact NoProvedNeighbours.insert rfl parts.1 parts.2
  | store noLeft noRight =>
    have parts := neighbours_split [_] (by simpa using holds)
    refine List.chain'_append.mpr ⟨parts.1, parts.2.cons' fun next head => .inr (noRight next head),
      fun prev last _ slot => ?_⟩
    exact .inl (noLeft prev last)

end Neighbours

/-- Every call with its precondition met keeps neighbouring slots from both being proved. -/
theorem TreeCall.apply_noProvedNeighbours {t t' : ProofTree P} {call : TreeCall P}
    {pairs : Nat} (holds : NoProvedNeighbours t.tree.entries)
    (applied : call.apply t = some (t', pairs)) : NoProvedNeighbours t'.tree.entries := by
  rcases apply_cases applied with
    ⟨lower, upper, index, -, -, split, entries⟩ |
    ⟨before, after, index, node, proof, result, -, -, split, outcome⟩
  · rw [split] at holds
    rw [entries]
    exact NoProvedNeighbours.insert rfl holds.left_of_append holds.right_of_append
  · exact outcome.noProvedNeighbours (split ▸ holds)

/-- Over a run of calls with their preconditions met, no two neighbouring slots are proved. -/
theorem runCalls_noProvedNeighbours {t t' : ProofTree P} {calls : List (TreeCall P)} {pairs : Nat}
    (holds : NoProvedNeighbours t.tree.entries) (run : runCalls t calls = some (t', pairs)) :
    NoProvedNeighbours t'.tree.entries :=
  runCalls_induction (fun t => NoProvedNeighbours t.tree.entries)
    (fun _ _ _ _ holds applied => TreeCall.apply_noProvedNeighbours holds applied) holds run

/-- Chunks 0, 1 and 2 proved in the order 1, 2, 0, each merge answered at its slot. -/
def threeChunkCalls : List (TreeCall Unit) :=
  [.initNode 0, .initNode 1, .initNode 2, .setProof 1 ⟨(), 1, 1⟩, .setProof 2 ⟨(), 2, 2⟩,
    .setProof 2 ⟨(), 1, 2⟩, .setProof 0 ⟨(), 0, 0⟩, .setProof 0 ⟨(), 0, 2⟩]

/-- Whatever the order proofs arrive in, `set_proof` never leaves two neighbouring proved
slots unpaired. -/
theorem no_proved_neighbours {calls : List (TreeCall P)} {t : ProofTree P} {pairs : Nat}
    (run : runCalls ProofTree.default calls = some (t, pairs)) :
    NoProvedNeighbours t.tree.entries :=
  runCalls_noProvedNeighbours (by simp [NoProvedNeighbours]) run

theorem no_proved_neighbours_three_chunks :
    ∃ t, runCalls ProofTree.default threeChunkCalls = some (t, 2) ∧
      NoProvedNeighbours t.tree.entries := by
  obtain ⟨t, run⟩ : ∃ t, runCalls ProofTree.default threeChunkCalls = some (t, 2) := ⟨_, rfl⟩
  exact ⟨t, run, no_proved_neighbours run⟩

/-! ## Every pair removes one slot -/

theorem SetProofOutcome.length_add {before after entries : List (Nat × ProofNode P)}
    {index : Nat} {proof : IndexedProof P} {result : Option (List (IndexedProof P))}
    (outcome : SetProofOutcome index proof before after entries result) :
    entries.length + (if result.isSome then 1 else 0) = before.length + after.length + 1 ∧
      entries ≠ [] := by
  cases outcome <;> simp <;> omega

theorem TreeCall.apply_len {t t' : ProofTree P} {call : TreeCall P} {pairs : Nat}
    (applied : call.apply t = some (t', pairs)) :
    t'.len + pairs = t.len + (if call.isInit then 1 else 0) ∧ 1 ≤ t'.len := by
  simp only [len, BTreeMap.len]
  rcases apply_cases applied with
    ⟨lower, upper, index, rfl, rfl, split, entries⟩ |
    ⟨before, after, index, node, proof, result, rfl, rfl, split, outcome⟩
  · simp [split, entries, isInit]
    omega
  · obtain ⟨counted, nonempty⟩ := outcome.length_add
    refine ⟨?_, List.length_pos.mpr nonempty⟩
    simp only [split, isInit, List.length_append, List.length_cons, Bool.false_eq_true,
      ite_false]
    omega

theorem runCalls_len : ∀ {t t' : ProofTree P} {calls : List (TreeCall P)} {pairs : Nat},
    runCalls t calls = some (t', pairs) →
      t'.len + pairs = t.len + calls.countP TreeCall.isInit ∧ (calls ≠ [] → 1 ≤ t'.len)
  | t, t', [], pairs, run => by
    simp only [runCalls, Option.some.injEq, Prod.mk.injEq] at run
    obtain ⟨rfl, rfl⟩ := run
    simp
  | t, t', call :: calls, pairs, run => by
    obtain ⟨t'', first, rest, applied, tail, rfl⟩ := runCalls_cons.mp run
    obtain ⟨counted, nonempty⟩ := TreeCall.apply_len applied
    obtain ⟨countedRest, nonemptyRest⟩ := runCalls_len tail
    refine ⟨by rw [List.countP_cons]; omega, fun _ => ?_⟩
    cases calls with
    | nil =>
      simp only [runCalls, Option.some.injEq, Prod.mk.injEq] at tail
      exact tail.1 ▸ nonempty
    | cons _ _ => exact nonemptyRest (List.cons_ne_nil _ _)

theorem NoProvedNeighbours.length_le_one {entries : List (Nat × ProofNode P)}
    (holds : NoProvedNeighbours entries)
    (allProved : ∀ entry ∈ entries, entry.2.isProved = true) : entries.length ≤ 1 := by
  rcases entries with _ | ⟨first, _ | ⟨second, rest⟩⟩
  · simp
  · simp
  · have pair := (List.chain'_cons.mp holds).1
    simp [allProved first (by simp), allProved second (by simp)] at pair

/-- With `N` calls to `init_node`, the live slots number `N` less the pairs handed out; once
no slot is waiting, one slot is left and `N - 1` pairs have been handed out. -/
theorem len_add_pairs_eq_inits {calls : List (TreeCall P)} {t : ProofTree P} {pairs : Nat}
    (run : runCalls ProofTree.default calls = some (t, pairs))
    (started : 1 ≤ calls.countP TreeCall.isInit) :
    t.len + pairs = calls.countP TreeCall.isInit ∧
      ((∀ entry ∈ t.tree.entries, entry.2.isProved = true) →
        t.len = 1 ∧ pairs + 1 = calls.countP TreeCall.isInit) := by
  obtain ⟨counted, nonempty⟩ := runCalls_len run
  have live : 1 ≤ t.len := nonempty fun empty => by simp [empty] at started
  have counted : t.len + pairs = calls.countP TreeCall.isInit := by
    simpa [len, BTreeMap.len] using counted
  refine ⟨counted, fun allProved => ?_⟩
  have single := NoProvedNeighbours.length_le_one
    (runCalls_noProvedNeighbours (by simp [NoProvedNeighbours]) run) allProved
  have one : t.len = 1 := by simp only [len, BTreeMap.len] at live ⊢; omega
  exact ⟨one, by omega⟩

theorem len_add_pairs_three_chunks :
    ∃ t, runCalls ProofTree.default threeChunkCalls = some (t, 2) ∧
      1 ≤ threeChunkCalls.countP TreeCall.isInit ∧
      t.len + 2 = threeChunkCalls.countP TreeCall.isInit ∧
      ((∀ entry ∈ t.tree.entries, entry.2.isProved = true) →
        t.len = 1 ∧ 2 + 1 = threeChunkCalls.countP TreeCall.isInit) :=
    by
  obtain ⟨t, run⟩ : ∃ t, runCalls ProofTree.default threeChunkCalls = some (t, 2) := ⟨_, rfl⟩
  exact ⟨t, run, by decide, len_add_pairs_eq_inits run (by decide)⟩

end ProofTree

end ProvingService
