import ProvingService.ProofTree.BTreeMap

/-!
# The proof tree

`ProofTree` of `gateway/handler/proof_tree.rs`: an online pairwise reduction over slots keyed
by chunk index. `set_proof` pairs a proof with the nearest slot before it if that slot is
proved, else with the nearest slot after it if that one is, and otherwise stores it.
-/

set_option autoImplicit false

namespace ProvingService

/-- `IndexedProof<P>`: a proof and the chunks `[startChunk, endChunk]` it covers. -/
structure IndexedProof (P : Type) where
  inner : P
  startChunk : Nat
  endChunk : Nat
  deriving DecidableEq, Repr

/-- The chunks a proof covers, as a closed interval. -/
def IndexedProof.range {P : Type} (proof : IndexedProof P) : Nat × Nat :=
  (proof.startChunk, proof.endChunk)

/-- `ProofNode<P>`: a slot waiting for its proof (with the proofs being combined into it),
or holding one. -/
inductive ProofNode (P : Type) where
  | inProgress (proofs : List (IndexedProof P))
  | proved (proof : IndexedProof P)
  deriving DecidableEq, Repr

namespace ProofNode

variable {P : Type}

/-- `ProofNode::init`: waiting for the convert proof. -/
def init : ProofNode P := .inProgress []

@[simp] theorem init_eq : (init : ProofNode P) = inProgress [] := rfl

/-- `ProofNode::is_proved`. -/
def isProved : ProofNode P → Bool
  | .proved _ => true
  | .inProgress _ => false

@[simp] theorem isProved_proved (proof : IndexedProof P) : (proved proof).isProved = true := rfl

@[simp] theorem isProved_inProgress (proofs : List (IndexedProof P)) :
    (inProgress proofs).isProved = false := rfl

end ProofNode

/-- Panic text of the `assert!` in `init_node`. -/
def initTwice : String := "proof node must be initialized once in tree"

/-- Panic text of `Option::unwrap` on `None`. -/
def unwrapNone : String := "called `Option::unwrap()` on a `None` value"

/-- `ProofTree<P>`. -/
structure ProofTree (P : Type) where
  tree : BTreeMap (ProofNode P)

namespace ProofTree

variable {P : Type}

/-- `ProofTree::default`. -/
def default : ProofTree P := ⟨.empty⟩

def len (t : ProofTree P) : Nat := t.tree.len

/-- `init_node`: a fresh in-progress slot at `index`; panics if `index` is live. -/
def initNode (t : ProofTree P) (index : Nat) : Except String (ProofTree P) :=
  if (t.tree.insert index ProofNode.init).2.isNone then .ok ⟨(t.tree.insert index .init).1⟩
  else .error initTwice

/-- `index_proofs` of `set_proof`: the sibling slot and the pair to combine, in chunk order.
The left neighbour is looked at first; the right one only if the left is not proved. -/
def indexProofs (t : ProofTree P) (index : Nat) (proof : IndexedProof P) :
    Option (Nat × List (IndexedProof P)) :=
  match t.tree.lastBelow index with
  | some (prevIndex, .proved prevProof) => some (prevIndex, [prevProof, proof])
  | _ =>
    match t.tree.firstAbove index with
    | some (nextIndex, .proved nextProof) => some (nextIndex, [proof, nextProof])
    | _ => none

/-- `set_proof`: removes the sibling and leaves `index` waiting for the merge, or stores the
proof; `get_mut(&index).unwrap()` panics if `index` is not live. -/
def setProof (t : ProofTree P) (index : Nat) (proof : IndexedProof P) :
    Except String (ProofTree P × Option (List (IndexedProof P))) :=
  let (tree, nodeToSet, proofsToCombine) :=
    match t.indexProofs index proof with
    | some (siblingIndex, proofsToCombine) =>
      (t.tree.remove siblingIndex, ProofNode.inProgress proofsToCombine, some proofsToCombine)
    | none => (t.tree, ProofNode.proved proof, none)
  match tree.set index nodeToSet with
  | some tree => .ok (⟨tree⟩, proofsToCombine)
  | none => .error unwrapNone

@[simp] theorem default_entries : (ProofTree.default : ProofTree P).tree.entries = [] := rfl

/-! ## What one call does -/

/-- `init_node` at a fresh index slots an in-progress node between the smaller and the larger
keys. -/
theorem initNode_fresh {t : ProofTree P} {index : Nat} (fresh : index ∉ t.tree.keys) :
    ∃ lower upper t', t.tree.entries = lower ++ upper ∧ t.initNode index = .ok t' ∧
      t'.tree.entries = lower ++ (index, .init) :: upper ∧
      (∀ entry ∈ lower, entry.1 < index) ∧ ∀ entry ∈ upper, index < entry.1 := by
  obtain ⟨lower, upper, split, inserted, old, below, above⟩ :=
    BTreeMap.insert_fresh (ProofNode.init : ProofNode P) fresh
  exact ⟨lower, upper, ⟨(t.tree.insert index .init).1⟩, split, by simp [initNode, old, -ProofNode.init_eq], inserted,
    below, above⟩

/-- A slot `init_node` makes is one more live slot. -/
theorem initNode_length {t t' : ProofTree P} {index : Nat} (run : t.initNode index = .ok t') :
    t'.tree.entries.length = t.tree.entries.length + 1 := by
  unfold initNode at run
  split_ifs at run with fresh
  cases run
  exact (BTreeMap.length_insertEntries index _ _).trans (congrArg _ (if_pos fresh))

/-- `init_node` above every live key appends the slot. -/
theorem initNode_last {t : ProofTree P} {index : Nat} (above : ∀ key ∈ t.tree.keys, key < index) :
    ∃ t', t.initNode index = .ok t' ∧ t'.tree.entries = t.tree.entries ++ [(index, .init)] := by
  have fresh : index ∉ t.tree.keys := fun live => Nat.lt_irrefl _ (above index live)
  obtain ⟨lower, upper, t', split, run, entries, -, larger⟩ := initNode_fresh fresh
  have noUpper : upper = [] := List.eq_nil_iff_forall_not_mem.mpr fun entry member =>
    Nat.lt_asymm (larger entry member)
      (above entry.1 (BTreeMap.mem_keys (split ▸ List.mem_append_right _ member)))
  exact ⟨t', run, by rw [entries, split, noUpper, List.append_nil]⟩

/-- The three branches of `set_proof` at a live slot, on the entries before and after it. -/
inductive SetProofOutcome (index : Nat) (proof : IndexedProof P) :
    List (Nat × ProofNode P) → List (Nat × ProofNode P) → List (Nat × ProofNode P) →
      Option (List (IndexedProof P)) → Prop
  /-- The nearest slot before `index` is proved: it is removed, `index` awaits the merge. -/
  | mergeLeft {before after : List (Nat × ProofNode P)} {sibling : Nat}
      {prevProof : IndexedProof P} :
      SetProofOutcome index proof (before ++ [(sibling, .proved prevProof)]) after
        (before ++ (index, .inProgress [prevProof, proof]) :: after) (some [prevProof, proof])
  /-- Only the nearest slot after `index` is proved: it is removed, `index` awaits the merge. -/
  | mergeRight {before after : List (Nat × ProofNode P)} {sibling : Nat}
      {nextProof : IndexedProof P} :
      (∀ prev ∈ before.getLast?, prev.2.isProved = false) →
      SetProofOutcome index proof before ((sibling, .proved nextProof) :: after)
        (before ++ (index, .inProgress [proof, nextProof]) :: after) (some [proof, nextProof])
  /-- Neither neighbour is proved: `index` holds the proof. -/
  | store {before after : List (Nat × ProofNode P)} :
      (∀ prev ∈ before.getLast?, prev.2.isProved = false) →
      (∀ next ∈ after.head?, next.2.isProved = false) →
      SetProofOutcome index proof before after (before ++ (index, .proved proof) :: after) none

namespace SetProofOutcome

variable {index : Nat} {proof : IndexedProof P} {node : ProofNode P}
  {before after entries : List (Nat × ProofNode P)} {result : Option (List (IndexedProof P))}

/-- `set_proof` removes only a proved sibling: a waiting slot other than `index` stays. -/
theorem mem_waiting (outcome : SetProofOutcome index proof before after entries result)
    {key : Nat} {proofs : List (IndexedProof P)}
    (member : (key, .inProgress proofs) ∈ before ++ (index, node) :: after) (other : key ≠ index) :
    (key, .inProgress proofs) ∈ entries := by
  cases outcome <;> simp_all

/-- Every slot other than `index` after `set_proof` was live before. -/
theorem mem_of_ne (outcome : SetProofOutcome index proof before after entries result)
    {entry : Nat × ProofNode P} (member : entry ∈ entries) (other : entry.1 ≠ index) :
    entry ∈ before ++ (index, node) :: after := by
  obtain ⟨key, slot⟩ := entry
  have around : ∀ {front back : List (Nat × ProofNode P)} {held : ProofNode P},
      (key, slot) ∈ front ++ (index, held) :: back → (key, slot) ∈ front ∨ (key, slot) ∈ back :=
    fun member => by simpa [other] using member
  cases outcome with
  | mergeLeft => rcases around member with old | old <;> simp [old]
  | mergeRight => rcases around member with old | old <;> simp [old]
  | store => rcases around member with old | old <;> simp [old]

/-- The slot at `index` after `set_proof`: waiting for the pair handed out, or proved. -/
theorem mem_index (outcome : SetProofOutcome index proof before after entries result) :
    (index, result.elim (ProofNode.proved proof) ProofNode.inProgress) ∈ entries := by
  cases outcome <;> simp

end SetProofOutcome

section SetProof

variable {t : ProofTree P} {index : Nat} {proof : IndexedProof P} {node : ProofNode P}
  {before after : List (Nat × ProofNode P)}

private theorem setProof_of_merge {sibling : Nat} {proofs : List (IndexedProof P)}
    (chosen : t.indexProofs index proof = some (sibling, proofs))
    (split : (t.tree.remove sibling).entries = before ++ (index, node) :: after) :
    ∃ t', t.setProof index proof = .ok (t', some proofs) ∧
      t'.tree.entries = before ++ (index, .inProgress proofs) :: after := by
  obtain ⟨tree, set, entries⟩ := BTreeMap.set_split split (ProofNode.inProgress proofs)
  exact ⟨⟨tree⟩, by simp [setProof, chosen, set], entries⟩

private theorem setProof_of_store (chosen : t.indexProofs index proof = none)
    (split : t.tree.entries = before ++ (index, node) :: after) :
    ∃ t', t.setProof index proof = .ok (t', none) ∧
      t'.tree.entries = before ++ (index, .proved proof) :: after := by
  obtain ⟨tree, set, entries⟩ := BTreeMap.set_split split (ProofNode.proved proof)
  exact ⟨⟨tree⟩, by simp [setProof, chosen, set], entries⟩

private theorem setProof_split_noLeft (split : t.tree.entries = before ++ (index, node) :: after)
    (noLeft : ∀ prev ∈ before.getLast?, prev.2.isProved = false) :
    ∃ t' result, t.setProof index proof = .ok (t', result) ∧
      SetProofOutcome index proof before after t'.tree.entries result := by
  have skipLeft : t.indexProofs index proof =
      match after.head? with
      | some (nextIndex, .proved nextProof) => some (nextIndex, [proof, nextProof])
      | _ => none := by
    rw [indexProofs, BTreeMap.lastBelow_split split, BTreeMap.firstAbove_split split]
    split
    · rename_i last
      simpa using noLeft _ last
    · rfl
  cases after with
  | nil =>
    obtain ⟨t', run, entries⟩ := setProof_of_store skipLeft split
    exact ⟨t', none, run, entries ▸ .store noLeft (by simp)⟩
  | cons next after =>
    obtain ⟨sibling, nextNode⟩ := next
    cases nextNode with
    | proved nextProof =>
      have removed := BTreeMap.remove_split (split.trans (List.append_cons _ _ _))
      obtain ⟨t', run, entries⟩ :=
        setProof_of_merge skipLeft (removed.trans (List.append_cons _ _ _).symm)
      exact ⟨t', _, run, entries ▸ .mergeRight noLeft⟩
    | inProgress proofs =>
      obtain ⟨t', run, entries⟩ := setProof_of_store skipLeft split
      exact ⟨t', none, run, entries ▸ .store noLeft (by simp)⟩

/-- One lemma for every caller: what `set_proof` does at a live slot. -/
theorem setProof_split (proof : IndexedProof P)
    (split : t.tree.entries = before ++ (index, node) :: after) :
    ∃ t' result, t.setProof index proof = .ok (t', result) ∧
      SetProofOutcome index proof before after t'.tree.entries result := by
  cases last : before.getLast? with
  | none => exact setProof_split_noLeft split (by simp [last])
  | some prev =>
    obtain ⟨sibling, prevNode⟩ := prev
    cases prevNode with
    | inProgress proofs => exact setProof_split_noLeft split (by simp [last])
    | proved prevProof =>
      obtain ⟨before, rfl⟩ := List.getLast?_eq_some_iff.mp last
      have chosen : t.indexProofs index proof = some (sibling, [prevProof, proof]) := by
        simp [indexProofs, BTreeMap.lastBelow_split split]
      have removed := BTreeMap.remove_split (split.trans (List.append_assoc _ _ _))
      obtain ⟨t', run, entries⟩ := setProof_of_merge chosen removed
      exact ⟨t', _, run, entries ▸ .mergeLeft⟩

end SetProof

end ProofTree

end ProvingService
