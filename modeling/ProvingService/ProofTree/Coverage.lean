import ProvingService.ProofTree.Basic

/-!
# Chunk coverage of the proof tree

Every live slot stands for a range of chunks: a proved slot for its proof's range, a slot
awaiting its convert proof for its own chunk, and a slot awaiting a merge for the union of the
pair. Read in key order these ranges run end to end, and `set_proof` keeps them so when the
proof it stores covers what its slot stood for.
-/

set_option autoImplicit false

namespace ProvingService

/-- Ranges that cover `[lo, hi)` end to end in order, none of them empty. -/
def Tiles : Nat → Nat → List (Nat × Nat) → Prop
  | lo, hi, [] => lo = hi
  | lo, hi, range :: ranges => range.1 = lo ∧ range.1 ≤ range.2 ∧ Tiles (range.2 + 1) hi ranges

instance Tiles.decidable : ∀ lo hi ranges, Decidable (Tiles lo hi ranges)
  | lo, hi, [] => inferInstanceAs (Decidable (lo = hi))
  | lo, hi, range :: ranges =>
    have := Tiles.decidable (range.2 + 1) hi ranges
    inferInstanceAs (Decidable (range.1 = lo ∧ range.1 ≤ range.2 ∧ _))

/-- Whether `range` contains `chunk`. -/
def Covers (chunk : Nat) (range : Nat × Nat) : Bool := range.1 ≤ chunk ∧ chunk ≤ range.2

/-- Every chunk below `n` lies in exactly one of the ranges, and no other chunk in any. -/
def Partition (n : Nat) (ranges : List (Nat × Nat)) : Prop :=
  ∀ chunk, ranges.countP (Covers chunk) = if chunk < n then 1 else 0

section Tiles

variable {lo hi : Nat} {ranges : List (Nat × Nat)}

@[simp] theorem tiles_nil : Tiles lo hi [] ↔ lo = hi := Iff.rfl

@[simp] theorem tiles_cons {range : Nat × Nat} :
    Tiles lo hi (range :: ranges) ↔ range.1 = lo ∧ range.1 ≤ range.2 ∧ Tiles (range.2 + 1) hi ranges :=
  Iff.rfl

theorem tiles_append {rest : List (Nat × Nat)} :
    Tiles lo hi (ranges ++ rest) ↔ ∃ mid, Tiles lo mid ranges ∧ Tiles mid hi rest := by
  induction ranges generalizing lo with
  | nil => simp
  | cons range ranges ih => simp [ih, and_assoc]

theorem Tiles.bounds (tiled : Tiles lo hi ranges) :
    lo ≤ hi ∧ ∀ range ∈ ranges, lo ≤ range.1 ∧ range.1 ≤ range.2 ∧ range.2 < hi := by
  induction ranges generalizing lo with
  | nil => simp only [tiles_nil] at tiled; simp [tiled]
  | cons range ranges ih =>
    obtain ⟨start, nonempty, rest⟩ := tiled
    obtain ⟨restLe, restBounds⟩ := ih rest
    refine ⟨by omega, fun member inList => ?_⟩
    rcases List.mem_cons.mp inList with rfl | inList
    · omega
    · have := restBounds member inList
      omega

theorem Tiles.eq_nil (tiled : Tiles lo lo ranges) : ranges = [] := by
  cases ranges with
  | nil => rfl
  | cons range ranges =>
    have := (Tiles.bounds tiled).2 range (List.mem_cons_self _ _)
    omega

theorem Tiles.countP_covers (tiled : Tiles lo hi ranges) (chunk : Nat) :
    ranges.countP (Covers chunk) = if lo ≤ chunk ∧ chunk < hi then 1 else 0 := by
  induction ranges generalizing lo with
  | nil =>
    simp only [tiles_nil] at tiled
    subst tiled
    rw [if_neg (by omega)]
    rfl
  | cons range ranges ih =>
    obtain ⟨start, nonempty, rest⟩ := tiled
    have restLe := (Tiles.bounds rest).1
    rw [List.countP_cons, ih rest]
    simp only [Covers, decide_eq_true_eq]
    split_ifs <;> omega

/-- A cover of `[lo, hi)` by nonempty ranges has at most `hi - lo` of them. -/
theorem Tiles.length_le (tiled : Tiles lo hi ranges) : ranges.length ≤ hi - lo := by
  induction ranges generalizing lo with
  | nil => exact Nat.zero_le _
  | cons range ranges ih =>
    obtain ⟨start, nonempty, rest⟩ := tiled
    have below := (Tiles.bounds rest).1
    have := ih rest
    rw [List.length_cons]
    omega

/-- Ranges that run end to end over `[0, n)` partition it. -/
theorem Tiles.partition {n : Nat} (tiled : Tiles 0 n ranges) : Partition n ranges :=
  fun chunk => by simpa using tiled.countP_covers chunk

/-- A chunk emitted after the cover extends it by itself. -/
theorem Tiles.snoc (tiled : Tiles lo hi ranges) : Tiles lo (hi + 1) (ranges ++ [(hi, hi)]) :=
  tiles_append.mpr ⟨hi, tiled, by simp⟩

/-- Two neighbouring ranges meet, and their union keeps the cover end to end. -/
theorem Tiles.merge {before after : List (Nat × Nat)} {left right : Nat × Nat}
    (tiled : Tiles lo hi (before ++ left :: right :: after)) :
    left.2 + 1 = right.1 ∧ Tiles lo hi (before ++ (left.1, right.2) :: after) := by
  obtain ⟨mid, head, ⟨start, nonempty, meet, rightNonempty, rest⟩⟩ := tiles_append.mp tiled
  exact ⟨meet.symm, tiles_append.mpr ⟨mid, head, start, by omega, rest⟩⟩

/-- The only range of a cover of `[0, n)` that spans all of it is the cover's single range. -/
theorem Tiles.length_eq_one_iff {n : Nat} {range : Nat × Nat} (tiled : Tiles 0 n ranges)
    (member : range ∈ ranges) : ranges.length = 1 ↔ range.1 = 0 ∧ range.2 + 1 = n := by
  obtain ⟨before, after, rfl⟩ := List.append_of_mem member
  obtain ⟨mid, head, start, nonempty, rest⟩ := tiles_append.mp tiled
  constructor
  · intro single
    have : before = [] ∧ after = [] := by
      simp only [List.length_append, List.length_cons] at single
      exact ⟨List.eq_nil_of_length_eq_zero (by omega), List.eq_nil_of_length_eq_zero (by omega)⟩
    obtain ⟨rfl, rfl⟩ := this
    simp only [tiles_nil] at head rest
    omega
  · rintro ⟨zero, whole⟩
    have noneBefore : before = [] := by
      rw [← start, zero] at head
      exact Tiles.eq_nil head
    have noneAfter : after = [] := by
      rw [whole] at rest
      exact Tiles.eq_nil rest
    simp [noneBefore, noneAfter]

end Tiles

/-- What a slot waiting for proofs stands for: the pair being combined into it, or its own
chunk while its convert proof is outstanding. -/
def pairRange {P : Type} (key : Nat) (proofs : List (IndexedProof P)) : Nat × Nat :=
  match proofs.head?, proofs.getLast? with
  | some first, some last => (first.startChunk, last.endChunk)
  | _, _ => (key, key)

/-- Two proofs of nonempty ranges, the second starting right after the first ends: what a
combine request carries. -/
def IndexedProof.Adjacent {P : Type} (first second : IndexedProof P) : Prop :=
  first.startChunk ≤ first.endChunk ∧ first.endChunk + 1 = second.startChunk ∧
    second.startChunk ≤ second.endChunk

/-- The chunks the slot at `key` stands for. -/
def ProofNode.range {P : Type} (key : Nat) : ProofNode P → Nat × Nat
  | .proved proof => proof.range
  | .inProgress proofs => pairRange key proofs

/-- The slots' ranges in key order. -/
def slotRanges {P : Type} (entries : List (Nat × ProofNode P)) : List (Nat × Nat) :=
  entries.map fun entry => entry.2.range entry.1

/-- Every live key lies in its own slot's range. -/
def KeysInRange {P : Type} (entries : List (Nat × ProofNode P)) : Prop :=
  ∀ entry ∈ entries, Covers entry.1 (entry.2.range entry.1)

section Ranges

variable {P : Type}

@[simp] theorem IndexedProof.range_eq (proof : IndexedProof P) :
    proof.range = (proof.startChunk, proof.endChunk) := rfl

@[simp] theorem pairRange_nil (key : Nat) : pairRange key ([] : List (IndexedProof P)) = (key, key) :=
  rfl

@[simp] theorem pairRange_pair (key : Nat) (first second : IndexedProof P) :
    pairRange key [first, second] = (first.startChunk, second.endChunk) := rfl

@[simp] theorem ProofNode.range_proved (key : Nat) (proof : IndexedProof P) :
    (ProofNode.proved proof).range key = proof.range := rfl

@[simp] theorem ProofNode.range_inProgress (key : Nat) (proofs : List (IndexedProof P)) :
    (ProofNode.inProgress proofs).range key = pairRange key proofs := rfl

@[simp] theorem slotRanges_nil : slotRanges ([] : List (Nat × ProofNode P)) = [] := rfl

@[simp] theorem slotRanges_cons (entry : Nat × ProofNode P) (entries : List (Nat × ProofNode P)) :
    slotRanges (entry :: entries) = entry.2.range entry.1 :: slotRanges entries := rfl

@[simp] theorem slotRanges_append (entries rest : List (Nat × ProofNode P)) :
    slotRanges (entries ++ rest) = slotRanges entries ++ slotRanges rest :=
  List.map_append _ _ _

@[simp] theorem length_slotRanges (entries : List (Nat × ProofNode P)) :
    (slotRanges entries).length = entries.length :=
  List.length_map _ _

end Ranges

namespace ProofTree.SetProofOutcome

variable {P : Type} {index : Nat} {proof : IndexedProof P} {node : ProofNode P}
  {before after entries : List (Nat × ProofNode P)} {result : Option (List (IndexedProof P))}
  {lo hi : Nat} {rest : List (Nat × Nat)}

private theorem keysInRange_insert {entry : Nat × ProofNode P}
    (inRange : KeysInRange (before ++ after)) (covered : Covers entry.1 (entry.2.range entry.1)) :
    KeysInRange (before ++ entry :: after) := by
  intro other member
  rcases List.mem_append.mp member with inBefore | inRest
  · exact inRange other (List.mem_append_left _ inBefore)
  · rcases List.mem_cons.mp inRest with rfl | inAfter
    · exact covered
    · exact inRange other (List.mem_append_right _ inAfter)

/-- `set_proof` keeps the slots' ranges end to end, each key inside its own range, when the
proof it is given covers what its slot stood for; a pair it hands out is two adjacent
proofs in chunk order. -/
theorem tiles (outcome : SetProofOutcome index proof before after entries result)
    (tiled : Tiles lo hi (slotRanges (before ++ (index, node) :: after) ++ rest))
    (inRange : KeysInRange (before ++ (index, node) :: after))
    (fits : proof.range = node.range index) :
    Tiles lo hi (slotRanges entries ++ rest) ∧ KeysInRange entries ∧
      ∀ proofs ∈ result, ∃ first second, proofs = [first, second] ∧ first.Adjacent second := by
  have own : Covers index (node.range index) := inRange (index, node) (by simp)
  rw [← fits] at own
  have nonempty := (Tiles.bounds tiled).2
  have others : ∀ (middle : List (Nat × ProofNode P)) {before' after' : List (Nat × ProofNode P)},
      before ++ (index, node) :: after = before' ++ middle ++ after' →
        KeysInRange (before' ++ after') := fun _ _ _ same other member =>
    inRange other <| same ▸ by
      rcases List.mem_append.mp member with old | old
      exacts [List.mem_append_left _ (List.mem_append_left _ old), List.mem_append_right _ old]
  cases outcome with
  | @mergeLeft _ _ sibling prevProof =>
    obtain ⟨meet, merged⟩ := Tiles.merge (by simpa [← fits] using tiled)
    have prev := nonempty prevProof.range (by simp)
    simp only [Covers, IndexedProof.range_eq, decide_eq_true_eq] at own prev meet
    refine ⟨by simpa using merged, keysInRange_insert (others [(sibling, .proved prevProof), (index, node)] (by simp)) ?_,
      fun proofs handed => ⟨_, _, (Option.some.inj handed).symm, by
        simp only [IndexedProof.Adjacent]; omega⟩⟩
    simp only [Covers, ProofNode.range_inProgress, pairRange_pair, decide_eq_true_eq]
    omega
  | @mergeRight _ _ sibling nextProof _ =>
    obtain ⟨meet, merged⟩ := Tiles.merge (by simpa [← fits] using tiled)
    have next := nonempty nextProof.range (by simp)
    simp only [Covers, IndexedProof.range_eq, decide_eq_true_eq] at own next meet
    refine ⟨by simpa using merged, keysInRange_insert (others [(index, node), (sibling, .proved nextProof)] (by simp)) ?_,
      fun proofs handed => ⟨_, _, (Option.some.inj handed).symm, by
        simp only [IndexedProof.Adjacent]; omega⟩⟩
    simp only [Covers, ProofNode.range_inProgress, pairRange_pair, decide_eq_true_eq]
    omega
  | store _ _ =>
    exact ⟨by simpa [← fits] using tiled, keysInRange_insert (others [(index, node)] (by simp)) own,
      fun _ handed => nomatch handed⟩

end ProofTree.SetProofOutcome

end ProvingService
