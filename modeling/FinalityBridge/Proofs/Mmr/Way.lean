import Mathlib.Data.List.Induction
import FinalityBridge.Proofs.Mmr.Binding

/-!
# Proofs that name another number of leaves

The root of a range does not tell the number of its leaves, so a proof may name another number and be
checked in another shape. All that counts of the shape is the way from the root down to the leaf
(`Mountain.way?`). A proof shows what stands at the end of its way below the root
(`InclusionProof.digest_of_verify`), and whatever stands there has a proof, be it a leaf or not
(`InclusionProof.exists_verify_of_follow?`). So the index of a proof is that of the leaf it shows
where the way to this index is the same in both shapes (`MountainRange.leaf_at_index_of_way?`), and
need not be elsewhere (`MountainRange.not_leaf_at_index_of_verify`).
-/

namespace FinalityBridge

namespace Merkle

/-- A turn on the way down from a digest that joins two others. -/
inductive Turn where
  | left
  | right
deriving DecidableEq

namespace Turn

/-- The turn that leads down to a position of a layer. -/
def ofPosition (position : Nat) : Turn := if position % 2 = 0 then left else right

/-- The position to which a turn leads from a position of the layer above. -/
def below (position : Nat) : Turn → Nat
  | left => 2 * position
  | right => 2 * position + 1

@[simp] theorem ofPosition_below (position : Nat) (turn : Turn) :
    ofPosition (turn.below position) = turn := by
  cases turn with
  | left => exact if_pos (Nat.mul_mod_right 2 position)
  | right => exact if_neg (by rw [below]; omega)

@[simp] theorem below_div_two (position : Nat) (turn : Turn) : turn.below position / 2 = position := by
  cases turn <;> rw [below] <;> omega

theorem below_lt {position height : Nat} (h : position < 2 ^ height) (turn : Turn) :
    turn.below position < 2 ^ (height + 1) := by
  rw [Nat.pow_succ]
  cases turn <;> rw [below] <;> omega

end Turn

namespace Origin

variable {hash : Hasher} {inputs : List Bytes}

/-- What stands at a turn. -/
def turn? : Origin → Turn → Option Origin
  | node left _, .left => some left
  | node _ right, .right => some right
  | _, _ => none

/-- What stands at the end of a way down. -/
def follow? (whole : Origin) (way : List Turn) : Option Origin := way.foldlM turn? whole

@[simp] theorem follow?_nil (whole : Origin) : whole.follow? [] = some whole := rfl

@[simp] theorem follow?_cons (whole : Origin) (turn : Turn) (way : List Turn) :
    whole.follow? (turn :: way) = (whole.turn? turn).bind fun part => part.follow? way := rfl

theorem follow?_append (whole : Origin) (above below : List Turn) :
    whole.follow? (above ++ below) = (whole.follow? above).bind fun part => part.follow? below :=
  List.foldlM_append

theorem follow?_singleton (whole : Origin) (turn : Turn) :
    whole.follow? [turn] = whole.turn? turn := by
  rw [follow?_cons]
  exact Option.bind_fun_some _

-- There is no way down from what joins nothing.
theorem exists_node_of_follow? {way : List Turn} {whole part : Origin}
    (h : whole.follow? way = some part) (hne : way ≠ []) :
    ∃ left right, whole = node left right := by
  obtain ⟨turn, below, rfl⟩ := List.exists_cons_of_ne_nil hne
  cases whole with
  | given digest => cases h
  | leaf content => cases h
  | node left right => exact ⟨left, right, rfl⟩

-- What stands at the turn to a position has been joined with its sibling there.
theorem turn?_ofPosition_eq_some_iff {position : Nat} {whole part : Origin} :
    whole.turn? (.ofPosition position) = some part ↔
      ∃ sibling, whole = Layer.joinAt node position part sibling := by
  unfold Layer.joinAt Turn.ofPosition
  by_cases hparity : position % 2 = 0
  · simp only [if_pos hparity]
    cases whole <;> simp [turn?]
  · simp only [if_neg hparity]
    cases whole <;> simp [turn?]

theorem exists_joinAt_of_turn? {whole part : Origin} {turn : Turn}
    (h : whole.turn? turn = some part) (position : Nat) :
    ∃ sibling, whole = Layer.joinAt node (turn.below position) part sibling := by
  rw [← Turn.ofPosition_below position turn] at h
  exact turn?_ofPosition_eq_some_iff.1 h

theorem within_turn? {whole part : Origin} {turn : Turn} (h : whole.turn? turn = some part) :
    Within part whole := by
  rcases exists_joinAt_of_turn? h 0 with ⟨sibling, rfl⟩
  exact within_joinAt _ part sibling

theorem eq_or_collides_of_turn? {turn : Turn} {whole whole' part part' : Origin}
    (h : whole.turn? turn = some part) (h' : whole'.turn? turn = some part')
    (hdigest : whole.digest hash = whole'.digest hash) (hsub : whole.inputs hash ⊆ inputs)
    (hsub' : whole'.inputs hash ⊆ inputs) :
    part.digest hash = part'.digest hash ∨ Collides hash inputs := by
  rcases exists_joinAt_of_turn? h 0 with ⟨sibling, rfl⟩
  rcases exists_joinAt_of_turn? h' 0 with ⟨sibling', rfl⟩
  rcases eq_or_collides_of_joinAt hdigest hsub hsub' with ⟨hpart, -⟩ | hcollides
  · exact .inl hpart
  · exact .inr hcollides

-- One way down from equal digests leads to equal digests, unless byte strings collide.
theorem eq_or_collides_of_follow? {way : List Turn} {whole whole' part part' : Origin}
    (h : whole.follow? way = some part) (h' : whole'.follow? way = some part')
    (hdigest : whole.digest hash = whole'.digest hash) (hsub : whole.inputs hash ⊆ inputs)
    (hsub' : whole'.inputs hash ⊆ inputs) :
    part.digest hash = part'.digest hash ∨ Collides hash inputs := by
  induction way generalizing whole whole' with
  | nil =>
    cases h
    cases h'
    exact .inl hdigest
  | cons turn way ih =>
    rw [follow?_cons, Option.bind_eq_some_iff] at h h'
    rcases h with ⟨below, hturn, h⟩
    rcases h' with ⟨below', hturn', h'⟩
    rcases eq_or_collides_of_turn? hturn hturn' hdigest hsub hsub' with hbelow | hcollides
    · exact ih h h' hbelow (List.Subset.trans ((within_turn? hturn).inputs_subset hash) hsub)
        (List.Subset.trans ((within_turn? hturn').inputs_subset hash) hsub')
    · exact .inr hcollides

end Origin

end Merkle

open Merkle Origin

namespace Mountain

/-! ## The way to a leaf -/

/-- The way from the peak of a mountain down to the leaf at a position. -/
def turns : (height position : Nat) → List Turn
  | 0, _ => []
  | height + 1, position =>
    turns height (position / 2) ++ [.ofPosition position]

/-- The way from the root down to a peak, by the number of peaks before it and after it. -/
def bagTurns (before after : Nat) : List Turn :=
  List.replicate after .left ++ if before = 0 then [] else [.right]

/-- The way from the root over `leafCount` leaves down to the leaf at `index`, if it is in range. -/
def way? (leafCount index : Nat) : Option (List Turn) := do
  let mountains := all leafCount
  let i ← mountains.findIdx? fun m => index < m.start + m.size
  let m ← mountains[i]?
  return bagTurns i (mountains.length - 1 - i) ++ turns m.height (index - m.start)

theorem length_turns (height position : Nat) : (turns height position).length = height := by
  induction height generalizing position with
  | zero => rfl
  | succ height ih => rw [turns, List.length_append, ih, List.length_singleton]

theorem length_bagTurns (before after : Nat) :
    (bagTurns before after).length = after + min before 1 := by
  rw [bagTurns, List.length_append, List.length_replicate]
  cases before with
  | zero => rfl
  | succ before => rw [if_neg (Nat.succ_ne_zero before), List.length_singleton]; omega

theorem way?_eq_some {leafCount index : Nat} {left right : List Mountain} {m : Mountain}
    (hsplit : all leafCount = left ++ m :: right) (hcovers : m.Covers index)
    (hleft : ∀ l ∈ left, l.start + l.size ≤ index) :
    way? leafCount index =
      some (bagTurns left.length right.length ++ turns m.height (index - m.start)) := by
  rw [way?, hsplit]
  simp [findIdx?_split hcovers hleft right]

theorem lt_of_way? {leafCount index : Nat} {way : List Turn} (h : way? leafCount index = some way) :
    index < leafCount := by
  simp only [way?, Option.bind_eq_bind, Option.bind_eq_some_iff] at h
  rcases h with ⟨i, hfind, -⟩
  rw [List.findIdx?_eq_some_iff_getElem] at hfind
  rcases hfind with ⟨hi, hbelow, -⟩
  have hend := end_le (List.getElem_mem hi)
  rw [decide_eq_true_eq] at hbelow
  omega

theorem follow?_ascend {height position : Nat} {start : Origin} {siblings : List Origin}
    (hlength : siblings.length = height) :
    (ascend node position start siblings).follow? (turns height position) = some start := by
  induction siblings generalizing height position start with
  | nil =>
    subst hlength
    exact follow?_nil start
  | cons sibling siblings ih =>
    subst hlength
    rw [ascend, List.length_cons, turns, follow?_append, ih rfl, Option.bind_some,
      follow?_singleton]
    exact turn?_ofPosition_eq_some_iff.2 ⟨sibling, rfl⟩

-- Conversely, there are siblings that lead back up a way.
theorem exists_ascend_of_follow? {way : List Turn} {whole part : Origin}
    (h : whole.follow? way = some part) :
    ∃ position siblings, position < 2 ^ way.length ∧ siblings.length = way.length ∧
      turns way.length position = way ∧ ascend node position part siblings = whole := by
  induction way using List.reverseRecOn generalizing part with
  | nil =>
    cases h
    exact ⟨0, [], Nat.one_pos, rfl, rfl, rfl⟩
  | append_singleton above turn ih =>
    rw [follow?_append, Option.bind_eq_some_iff] at h
    rcases h with ⟨joined, habove, hturn⟩
    rw [follow?_singleton] at hturn
    rcases ih habove with ⟨position, siblings, hlt, hlength, hturns, hascend⟩
    rcases exists_joinAt_of_turn? hturn position with ⟨sibling, hjoined⟩
    refine ⟨turn.below position, sibling :: siblings, ?_, ?_, ?_, ?_⟩
    · rw [List.length_append, List.length_singleton]
      exact Turn.below_lt hlt turn
    · rw [List.length_cons, List.length_append, List.length_singleton, hlength]
    · rw [List.length_append, List.length_singleton, turns, Turn.below_div_two, hturns,
        Turn.ofPosition_below]
    · rw [ascend, ← hjoined, Turn.below_div_two, hascend]

-- Joining from the left leaves the first at the left edge.
theorem turns_zero (height : Nat) : turns height 0 = List.replicate height .left := by
  induction height with
  | zero => rfl
  | succ height ih => rw [turns, Nat.zero_div, ih, List.replicate_succ', Turn.ofPosition,
      if_pos (Nat.zero_mod 2)]

theorem follow?_foldl (first : Origin) (others : List Origin) :
    (others.foldl node first).follow? (List.replicate others.length .left) = some first := by
  rw [← ascend_zero, ← turns_zero]
  exact follow?_ascend rfl

-- The peaks before another are bagged before they are joined with it.
theorem follow?_bag? {before after : List Origin} {peak whole : Origin}
    (h : bag? node (before ++ peak :: after) = some whole) :
    whole.follow? (bagTurns before.length after.length) = some peak := by
  cases before with
  | nil =>
    injection h with h
    subst h
    rw [bagTurns, List.length_nil, if_pos rfl, List.append_nil]
    exact follow?_foldl peak after
  | cons first others =>
    rw [List.cons_append, bag?, Option.some.injEq] at h
    subst h
    rw [bagTurns, List.length_cons, if_neg (Nat.succ_ne_zero _), List.foldl_append, List.foldl_cons,
      follow?_append, follow?_foldl]
    rfl

/-- A walk starts at the end of the way of its shape. -/
theorem follow?_climb? {leafCount index : Nat} {start whole : Origin} {items : List Origin}
    (h : climb? node leafCount index start items = some whole) :
    ∃ way, way? leafCount index = some way ∧ whole.follow? way = some start := by
  rcases exists_split (lt_of_climb? h) with ⟨left, m, right, hsplit, hcovers, hleft, -⟩
  rcases (climb?_eq_some_iff hsplit hcovers hleft).1 h with
    ⟨siblings, before, after, -, hsiblings, hbefore, hafter, hbag⟩
  refine ⟨_, way?_eq_some hsplit hcovers hleft, ?_⟩
  rw [← hbefore, ← hafter, follow?_append, follow?_bag? hbag, Option.bind_some,
    follow?_ascend hsiblings]

-- Among a power of two of leaves every way of its length leads to a leaf.
theorem way?_two_pow {height position : Nat} (h : position < 2 ^ height) :
    way? (2 ^ height) position = some (turns height position) :=
  way?_eq_some (all_two_pow height) (covers_of_lt_two_pow h) (List.forall_mem_nil _)

theorem climb?_two_pow {height position : Nat} {start : Origin} {siblings : List Origin}
    (h : position < 2 ^ height) (hlength : siblings.length = height) :
    climb? node (2 ^ height) position start siblings =
      some (ascend node position start siblings) := by
  apply (climb?_eq_some_iff (all_two_pow height) (covers_of_lt_two_pow h)
    (List.forall_mem_nil _)).2
  exact ⟨siblings, [], [], (List.append_nil siblings).symm, hlength, rfl, rfl, rfl⟩

end Mountain

/-! ## What a proof shows -/

section Shown

variable {hash : Hasher} {proof : InclusionProof} {leaf : Hash} {way : List Turn}

/-- A proof shows what stands at the end of its way below the root, unless byte strings collide.
Nothing is asked of what the root stands for. -/
theorem InclusionProof.digest_of_verify {whole part : Origin}
    (hway : Mountain.way? proof.leafCount.toNat proof.leafIndex.toNat = some way)
    (hpart : whole.follow? way = some part)
    (h : proof.verify hash leaf (whole.digest hash) = true) :
    leaf = part.digest hash ∨ Collides hash (whole.inputs hash ++ proof.joined hash leaf) := by
  rcases InclusionProof.verify_eq_true_iff.1 h with ⟨other, hother, hdigest⟩
  rcases Mountain.follow?_climb? hother with ⟨way', hway', hstart⟩
  rw [hway, Option.some.injEq] at hway'
  subst hway'
  rw [InclusionProof.joined_of_tree? hother]
  exact eq_or_collides_of_follow? hstart hpart hdigest (List.subset_append_right _ _)
    (List.subset_append_left _ _)

/-- Conversely, whatever stands at the end of a way below the root, be it a leaf or not, is shown by
some proof. -/
theorem InclusionProof.exists_verify_of_follow? (hash : Hasher) {whole part : Origin}
    (hlength : way.length < 64) (h : whole.follow? way = some part) :
    ∃ proof : InclusionProof,
      Mountain.way? proof.leafCount.toNat proof.leafIndex.toNat = some way ∧
        proof.verify hash (part.digest hash) (whole.digest hash) = true := by
  rcases Mountain.exists_ascend_of_follow? h with
    ⟨position, siblings, hlt, hsiblings, hturns, hascend⟩
  have hcount : 2 ^ way.length < 2 ^ 64 := Nat.pow_lt_pow_right (by decide) hlength
  have hposition : position < 2 ^ 64 := Nat.lt_trans hlt hcount
  refine ⟨⟨.ofNat position, .ofNat (2 ^ way.length), siblings.map (digest hash)⟩, ?_, ?_⟩
  · rw [UInt64.toNat_ofNat_of_lt' hcount, UInt64.toNat_ofNat_of_lt' hposition,
      Mountain.way?_two_pow hlt, hturns]
  · rw [InclusionProof.verify, beq_iff_eq, InclusionProof.rootFrom?,
      UInt64.toNat_ofNat_of_lt' hcount, UInt64.toNat_ofNat_of_lt' hposition,
      ← Mountain.map_climb? digest_node, Mountain.climb?_two_pow hlt hsiblings, hascend]
    rfl

namespace MountainRange

variable {range : MountainRange}

-- Each leaf of a range stands at the end of its way in the tree over the range.
theorem exists_follow?_tree? {index : Nat}
    (hway : Mountain.way? range.leafCount index = some way) :
    ∃ (leaf : Hash) (tree : Origin), range.leaves[index]? = some leaf ∧ range.tree? = some tree ∧
      tree.follow? way = some (given leaf) := by
  have hlt := Mountain.lt_of_way? hway
  have hne : range.leaves ≠ [] := List.ne_nil_of_length_pos (Nat.zero_lt_of_lt hlt)
  rcases Mountain.exists_split hlt with ⟨left, m, right, hsplit, hcovers, hleft, -⟩
  rcases exists_tree? hne with ⟨tree, htree⟩
  have hclimb := climb?_tree? hsplit hcovers hleft (List.getElem?_eq_getElem hlt)
  rw [htree] at hclimb
  rcases Mountain.follow?_climb? hclimb with ⟨way', hway', hstart⟩
  rw [hway, Option.some.injEq] at hway'
  subst hway'
  exact ⟨_, tree, List.getElem?_eq_getElem hlt, htree, hstart⟩

-- A range of more than one leaf has no leaf at the top.
theorem ne_nil_of_way?_one {leafCount : Nat} (h : Mountain.way? leafCount 1 = some way) :
    way ≠ [] := by
  have hlt := Mountain.lt_of_way? h
  obtain ⟨left, m, right, hsplit, hcovers, hleft, -⟩ := Mountain.exists_split hlt
  obtain ⟨before, first, after, hfirst, hzero, -⟩ :=
    Mountain.exists_split (show 0 < leafCount by omega)
  rw [Mountain.way?_eq_some hsplit hcovers hleft, Option.some.injEq] at h
  rintro rfl
  -- The leaf would be a mountain of its own, and the only one, with no place for the leaf before it.
  have hlength := congrArg List.length h
  rw [List.length_append, Mountain.length_bagTurns, Mountain.length_turns, List.length_nil] at hlength
  obtain rfl : left = [] := List.length_eq_zero_iff.1 (by omega)
  obtain rfl : right = [] := List.length_eq_zero_iff.1 (by omega)
  have hmem : first ∈ Mountain.all leafCount := by
    rw [hfirst]
    exact List.mem_append_right before List.mem_cons_self
  rw [hsplit] at hmem
  obtain rfl : first = m := List.mem_singleton.1 hmem
  have hsize := first.size_eq
  rw [show first.height = 0 by omega] at hsize
  obtain ⟨hstart, -⟩ := hzero
  obtain ⟨-, hend⟩ := hcovers
  omega

/-- The root over two leaves or more joins two digests. -/
theorem exists_node_tree? (h : 2 ≤ range.leafCount) :
    ∃ left right, range.tree? = some (node left right) := by
  obtain ⟨left, m, right, hsplit, hcovers, hleft, -⟩ :=
    Mountain.exists_split (show 1 < range.leafCount by omega)
  have hway := Mountain.way?_eq_some hsplit hcovers hleft
  obtain ⟨leaf, tree, -, htree, hfollow⟩ := exists_follow?_tree? hway
  obtain ⟨left, right, rfl⟩ := exists_node_of_follow? hfollow (ne_nil_of_way?_one hway)
  exact ⟨left, right, htree⟩

/-- What leads to the root of a range is the leaf of the range to which the way of the proof leads,
whatever number of leaves the proof names, unless byte strings collide. -/
theorem getElem?_of_way? {index : Nat}
    (hway : Mountain.way? proof.leafCount.toNat proof.leafIndex.toNat =
      Mountain.way? range.leafCount index)
    (h : proof.verify hash leaf (range.root hash) = true) :
    range.leaves[index]? = some leaf ∨
      Collides hash (range.joined hash ++ proof.joined hash leaf) := by
  rcases InclusionProof.verify_eq_true_iff.1 h with ⟨other, hother, -⟩
  rcases Mountain.follow?_climb? hother with ⟨way, hshape, -⟩
  rcases exists_follow?_tree? (hway.symm.trans hshape) with ⟨known, tree, hknown, htree, hfollow⟩
  rw [← digest_of_tree? htree] at h
  rw [joined_of_tree? htree, hknown, Option.some.injEq, eq_comm]
  exact InclusionProof.digest_of_verify hshape hfollow h

/-- A proof shows the leaf at its index, if the way to the index is the same among the leaves that the
proof names and among those of the range, and unless pairs of digests collide. -/
theorem leaf_at_index_of_way? (hash : Hasher) {range : MountainRange} {leaf : Hash}
    {proof : InclusionProof}
    (hway : Mountain.way? proof.leafCount.toNat proof.leafIndex.toNat =
      Mountain.way? range.leafCount proof.leafIndex.toNat)
    (h : proof.verify hash leaf (range.root hash) = true) :
    (proof.leafIndex.toNat < range.leafCount ∧
        range.leaves[proof.leafIndex.toNat]? = some leaf) ∨
      Collides hash (range.joined hash ++ proof.joined hash leaf) := by
  rcases getElem?_of_way? hway h with hleaf | hcollides
  · exact .inl ⟨(List.getElem?_eq_some_iff.1 hleaf).1, hleaf⟩
  · exact .inr hcollides

-- The mountain of three leaves that the first two are in lies under the single one of four.
theorem first_of_four_by_three :
    let leaf (number : UInt32) := Leaf.digest (blankLeaf number).encode
    let range := ofLeaves [blankLeaf 0, blankLeaf 1, blankLeaf 2, blankLeaf 3]
    let proof : InclusionProof := ⟨0, 3, [leaf 1, join Keccak.digest (leaf 2) (leaf 3)]⟩
    proof.verify Keccak.digest (leaf 0) (range.root Keccak.digest) = true ∧
      ((proof.leafIndex.toNat < range.leafCount ∧
        range.leaves[proof.leafIndex.toNat]? = some (leaf 0)) ∨
      Collides Keccak.digest
        (range.joined Keccak.digest ++ proof.joined Keccak.digest (leaf 0))) := by
  intro leaf range proof
  have hway : Mountain.way? proof.leafCount.toNat proof.leafIndex.toNat =
      Mountain.way? range.leafCount proof.leafIndex.toNat := by
    decide +kernel
  have h : proof.verify Keccak.digest (leaf 0) (range.root Keccak.digest) = true := by
    decide +kernel
  exact ⟨h, leaf_at_index_of_way? Keccak.digest hway h⟩

-- The second of two leaves passes for the third of three.
theorem not_leaf_at_index_of_verify :
    ¬∀ (range : MountainRange) (leaf : Hash) (proof : InclusionProof), range.leaves ≠ [] →
      proof.verify Keccak.digest leaf (range.root Keccak.digest) = true →
        (proof.leafIndex.toNat < range.leafCount ∧
          range.leaves[proof.leafIndex.toNat]? = some leaf) ∨
        Collides Keccak.digest
          (range.joined Keccak.digest ++ proof.joined Keccak.digest leaf) := by
  intro hall
  let first := Leaf.digest (blankLeaf 0).encode
  let second := Leaf.digest (blankLeaf 1).encode
  let range : MountainRange := ⟨[first, second]⟩
  let proof : InclusionProof := ⟨2, 3, [first]⟩
  have hverify : proof.verify Keccak.digest second (range.root Keccak.digest) = true := by
    decide +kernel
  -- The two leaves are all that is hashed, on both sides.
  have hjoined : range.joined Keccak.digest ++ proof.joined Keccak.digest second =
      [first.bytes ++ second.bytes, first.bytes ++ second.bytes] := by
    decide +kernel
  rcases hall range second proof (List.cons_ne_nil _ _) hverify with ⟨hlt, -⟩ | hcollides
  · exact absurd hlt (by decide)
  · rw [hjoined] at hcollides
    rcases hcollides with ⟨a, ha, b, hb, hne, -⟩
    simp only [List.mem_cons, List.not_mem_nil, or_false, or_self] at ha hb
    exact hne (ha.trans hb.symm)

end MountainRange

end Shown

end FinalityBridge
