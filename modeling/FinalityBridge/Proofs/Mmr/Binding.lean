import FinalityBridge.Proofs.Mmr.Inclusion

/-!
# Proofs that name the number of leaves

A proof that names the number of leaves of a range is checked in the shape of the range. Two walks of
one shape to the same digest start from the same digest and use the same items, unless two of the
pairs that are hashed on them collide (`Mountain.eq_or_collides_of_climb?`). The proof that the range
gives for a leaf is such a walk, so it is the only one there is (`MountainRange.provesLeaves`).
-/

namespace FinalityBridge

open Merkle Origin

variable {hash : Hasher} {inputs : List Bytes}

namespace Mountain

/-! ## Walks of one shape -/

theorem eq_or_collides_of_ascend {position : Nat} {start start' : Origin}
    {siblings siblings' : List Origin} (hlength : siblings.length = siblings'.length)
    (h : (ascend node position start siblings).digest hash =
      (ascend node position start' siblings').digest hash)
    (hsub : (ascend node position start siblings).inputs hash ⊆ inputs)
    (hsub' : (ascend node position start' siblings').inputs hash ⊆ inputs) :
    (start.digest hash = start'.digest hash ∧
      siblings.map (digest hash) = siblings'.map (digest hash)) ∨ Collides hash inputs := by
  induction siblings generalizing position start start' siblings' with
  | nil =>
    obtain rfl : siblings' = [] := List.length_eq_zero_iff.1 hlength.symm
    exact .inl ⟨h, rfl⟩
  | cons sibling siblings ih =>
    cases siblings' with
    | nil => cases hlength
    | cons sibling' siblings' =>
      -- Above the first step the walks agree, so what is hashed at that step decides.
      rcases ih (Nat.succ.inj hlength) h hsub hsub' with ⟨hjoined, hrest⟩ | hcollides
      · have hbelow := within_ascend (position / 2) (Layer.joinAt node position start sibling) siblings
        have hbelow' :=
          within_ascend (position / 2) (Layer.joinAt node position start' sibling') siblings'
        rcases eq_or_collides_of_joinAt hjoined
          (List.Subset.trans (hbelow.inputs_subset hash) hsub)
          (List.Subset.trans (hbelow'.inputs_subset hash) hsub') with ⟨hstart, hsibling⟩ | hcollides
        · rw [List.map_cons, List.map_cons, hsibling, hrest]
          exact .inl ⟨hstart, rfl⟩
        · exact .inr hcollides
      · exact .inr hcollides

-- Rows of as many peaks that are bagged to the same digest are the same.
theorem eq_or_collides_of_bag? {row row' : List Origin} {whole whole' : Origin}
    (hlength : row.length = row'.length) (h : bag? node row = some whole)
    (h' : bag? node row' = some whole') (hdigest : whole.digest hash = whole'.digest hash)
    (hsub : whole.inputs hash ⊆ inputs) (hsub' : whole'.inputs hash ⊆ inputs) :
    row.map (digest hash) = row'.map (digest hash) ∨ Collides hash inputs := by
  cases row with
  | nil => cases h
  | cons first others =>
    cases row' with
    | nil => cases h'
    | cons first' others' =>
      injection h with h
      injection h' with h'
      subst h h'
      simp only [← ascend_zero] at hdigest hsub hsub'
      rcases eq_or_collides_of_ascend (Nat.succ.inj hlength) hdigest hsub hsub' with
        ⟨hfirst, hothers⟩ | hcollides
      · rw [List.map_cons, List.map_cons, hfirst, hothers]
        exact .inl rfl
      · exact .inr hcollides

/-- Two walks of one shape to the same digest start from the same digest and use the same items,
unless byte strings collide. -/
theorem eq_or_collides_of_climb? {leafCount index : Nat} {start start' whole whole' : Origin}
    {items items' : List Origin} (h : climb? node leafCount index start items = some whole)
    (h' : climb? node leafCount index start' items' = some whole')
    (hdigest : whole.digest hash = whole'.digest hash) (hsub : whole.inputs hash ⊆ inputs)
    (hsub' : whole'.inputs hash ⊆ inputs) :
    (start.digest hash = start'.digest hash ∧
      items.map (digest hash) = items'.map (digest hash)) ∨ Collides hash inputs := by
  rcases exists_split (lt_of_climb? h) with ⟨left, m, right, hsplit, hcovers, hleft, -⟩
  rcases (climb?_eq_some_iff hsplit hcovers hleft).1 h with
    ⟨siblings, before, after, rfl, hsiblings, hbefore, hafter, hbag⟩
  rcases (climb?_eq_some_iff hsplit hcovers hleft).1 h' with
    ⟨siblings', before', after', rfl, hsiblings', hbefore', hafter', hbag'⟩
  have hlength : (before ++ ascend node (index - m.start) start siblings :: after).length =
      (before' ++ ascend node (index - m.start) start' siblings' :: after').length := by
    simp only [List.length_append, List.length_cons]
    omega
  rcases eq_or_collides_of_bag? hlength hbag hbag' hdigest hsub hsub' with hrow | hcollides
  · have hpeak := within_bag? (List.mem_append_right before List.mem_cons_self) hbag
    have hpeak' := within_bag? (List.mem_append_right before' List.mem_cons_self) hbag'
    rw [List.map_append, List.map_append, List.map_cons, List.map_cons] at hrow
    obtain ⟨hbeforeEq, hpeaksEq⟩ := List.append_inj hrow (by simp only [List.length_map]; omega)
    obtain ⟨hpeakEq, hafterEq⟩ := List.cons.inj hpeaksEq
    rcases eq_or_collides_of_ascend (hsiblings.trans hsiblings'.symm) hpeakEq
      (List.Subset.trans (hpeak.inputs_subset hash) hsub)
      (List.Subset.trans (hpeak'.inputs_subset hash) hsub') with ⟨hstart, hsiblingsEq⟩ | hcollides
    · simp only [List.map_append, hsiblingsEq, hbeforeEq, hafterEq]
      exact .inl ⟨hstart, trivial⟩
    · exact .inr hcollides
  · exact .inr hcollides

end Mountain

/-! ## What is hashed for a root and for a check -/

-- Only pairs of digests are hashed for what joins given digests.
theorem length_of_mem_inputs_node {a b : Origin} (ha : ∀ i ∈ a.inputs hash, i.length = 64)
    (hb : ∀ i ∈ b.inputs hash, i.length = 64) : ∀ i ∈ (node a b).inputs hash, i.length = 64 := by
  intro i hi
  rcases List.mem_cons.1 hi with rfl | hi
  · rw [List.length_append, FixedBytes.length_bytes, FixedBytes.length_bytes]
  · rcases List.mem_append.1 hi with hi | hi
    · exact ha i hi
    · exact hb i hi

theorem length_of_mem_inputs_given {digests : List Hash} {n : Origin} (h : n ∈ digests.map given) :
    ∀ i ∈ n.inputs hash, i.length = 64 := by
  rcases List.mem_map.1 h with ⟨digest, -, rfl⟩
  exact List.forall_mem_nil _

namespace InclusionProof

/-- The tree that is built when a proof is followed from the digest of a leaf. -/
def tree? (proof : InclusionProof) (leaf : Hash) : Option Origin :=
  Mountain.climb? node proof.leafCount.toNat proof.leafIndex.toNat (given leaf)
    (proof.items.map given)

/-- The pairs of digests that are hashed when a proof is followed from the digest of a leaf. -/
def joined (hash : Hasher) (proof : InclusionProof) (leaf : Hash) : List Bytes :=
  inputsOf hash (proof.tree? leaf)

theorem verify_eq_true_iff {proof : InclusionProof} {leaf root : Hash} :
    proof.verify hash leaf root = true ↔
      ∃ tree, proof.tree? leaf = some tree ∧ tree.digest hash = root := by
  have hfrom : proof.rootFrom? hash leaf = (proof.tree? leaf).map (digest hash) := by
    rw [tree?, Mountain.map_climb? digest_node, map_digest_given]
    rfl
  rw [InclusionProof.verify, beq_iff_eq, hfrom, Option.map_eq_some_iff]

theorem joined_of_tree? {proof : InclusionProof} {leaf : Hash} {tree : Origin}
    (h : proof.tree? leaf = some tree) : proof.joined hash leaf = tree.inputs hash :=
  inputsOf_of_eq_some h

theorem length_of_mem_joined {proof : InclusionProof} {leaf : Hash} :
    ∀ pair ∈ proof.joined hash leaf, pair.length = 64 := by
  rw [joined]
  cases htree : proof.tree? leaf with
  | none => exact List.forall_mem_nil _
  | some tree =>
    have hleaf : ∀ i ∈ (given leaf).inputs hash, i.length = 64 := List.forall_mem_nil _
    exact Mountain.climb?_induction (fun _ _ => length_of_mem_inputs_node) hleaf
      (fun _ => length_of_mem_inputs_given) htree

end InclusionProof

namespace MountainRange

/-- The tree over a range: every mountain, and the bagging of their peaks. -/
def tree? (range : MountainRange) : Option Origin := Mountain.root? node (range.leaves.map given)

/-- The pairs of digests that are hashed for the root of a range. -/
def joined (hash : Hasher) (range : MountainRange) : List Bytes := inputsOf hash range.tree?

theorem exists_tree? {range : MountainRange} (h : range.leaves ≠ []) :
    ∃ tree, range.tree? = some tree := by
  apply Mountain.exists_root? node
  simpa using h

theorem digest_of_tree? {range : MountainRange} {tree : Origin} (h : range.tree? = some tree) :
    tree.digest hash = range.root hash := by
  have hroot : Mountain.root? (join hash) range.leaves = some (tree.digest hash) := by
    rw [← map_digest_given hash range.leaves, ← Mountain.map_root? digest_node,
      show Mountain.root? node (range.leaves.map given) = some tree from h, Option.map_some]
  rw [root_eq_getD, hroot, Option.getD_some]

theorem joined_of_tree? {range : MountainRange} {tree : Origin} (h : range.tree? = some tree) :
    range.joined hash = tree.inputs hash :=
  inputsOf_of_eq_some h

/-- The tree over a range is built on the walk from each of its leaves. -/
theorem climb?_tree? {range : MountainRange} {left right : List Mountain} {m : Mountain} {index : Nat}
    {leaf : Hash} (hsplit : Mountain.all range.leafCount = left ++ m :: right)
    (hcovers : m.Covers index) (hleft : ∀ l ∈ left, l.start + l.size ≤ index)
    (hleaf : range.leaves[index]? = some leaf) :
    Mountain.climb? node range.leafCount index (given leaf)
        (Layer.path node (m.leaves (range.leaves.map given)) (index - m.start) ++
          (left ++ right).filterMap fun o => Layer.top? node (o.leaves (range.leaves.map given))) =
      range.tree? := by
  have hlength : (range.leaves.map given).length = range.leafCount := List.length_map given
  have hknown : (range.leaves.map given)[index]? = some (given leaf) := by
    rw [List.getElem?_map, hleaf]
    rfl
  have hclimb := Mountain.climb?_path node (by rwa [hlength]) hcovers hleft hknown
  rwa [hlength] at hclimb

theorem length_of_mem_joined {range : MountainRange} :
    ∀ pair ∈ range.joined hash, pair.length = 64 := by
  rw [joined]
  cases htree : range.tree? with
  | none => exact List.forall_mem_nil _
  | some tree =>
    exact Mountain.root?_induction (fun _ _ => length_of_mem_inputs_node)
      (fun _ => length_of_mem_inputs_given) htree

/-! ## The only proof of a leaf -/

theorem prove?_eq_none_iff {range : MountainRange} {index : UInt64} :
    range.prove? hash index = none ↔ range.leafCount ≤ index.toNat := by
  rw [prove?]
  by_cases hlt : index.toNat < range.leafCount
  · rw [if_pos hlt]
    constructor
    · intro h
      cases h
    · intro h
      omega
  · rw [if_neg hlt]
    exact ⟨fun _ => Nat.not_lt.1 hlt, fun _ => rfl⟩

/-- What leads to the root of a range and names its number of leaves is the proof that the range gives
for a leaf, unless byte strings collide. -/
theorem prove?_of_verify {range : MountainRange} {leaf : Hash} {proof : InclusionProof}
    (hcount : proof.leafCount.toNat = range.leafCount)
    (h : proof.verify hash leaf (range.root hash) = true) :
    (range.leaves[proof.leafIndex.toNat]? = some leaf ∧
      range.prove? hash proof.leafIndex = some proof) ∨
      Collides hash (range.joined hash ++ proof.joined hash leaf) := by
  rcases InclusionProof.verify_eq_true_iff.1 h with ⟨other, hother, hdigest⟩
  have hlt : proof.leafIndex.toNat < range.leafCount := hcount ▸ Mountain.lt_of_climb? hother
  have hne : range.leaves ≠ [] := List.ne_nil_of_length_pos (Nat.zero_lt_of_lt hlt)
  rcases exists_tree? hne with ⟨tree, htree⟩
  rcases Mountain.exists_split hlt with ⟨left, m, right, hsplit, hcovers, hleft, hright⟩
  -- The tree over the range is built along the way from the leaf as well.
  have hclimb := climb?_tree? hsplit hcovers hleft (List.getElem?_eq_getElem hlt)
  rw [htree] at hclimb
  rw [InclusionProof.joined_of_tree? hother, joined_of_tree? htree]
  rw [InclusionProof.tree?, hcount] at hother
  rcases Mountain.eq_or_collides_of_climb? hother hclimb (hdigest.trans (digest_of_tree? htree).symm)
    (List.subset_append_right _ _) (List.subset_append_left _ _) with ⟨hstart, hitems⟩ | hcollides
  · rw [map_digest_given, List.map_append, Layer.map_path digest_node, Mountain.map_leaves,
      Mountain.map_filterMap_peak digest_node, map_digest_given] at hitems
    have hstart : leaf = range.leaves[proof.leafIndex.toNat] := hstart
    refine .inl ⟨by rw [List.getElem?_eq_getElem hlt, hstart], ?_⟩
    rw [prove?_eq_some hsplit hcovers hleft hright hlt, ← hcount, UInt64.ofNat_toNat]
    exact congrArg (fun items => some (InclusionProof.mk proof.leafIndex proof.leafCount items))
      hitems.symm
  · exact .inr hcollides

/-- What the proofs of a range are worth. -/
structure ProvesLeaves (hash : Hasher) (range : MountainRange) : Prop where
  -- There is a proof for each leaf and for no other index,
  prove?_eq_none_iff : ∀ index : UInt64,
    range.prove? hash index = none ↔ range.leafCount ≤ index.toNat
  -- all that is read for the proofs and for the root being there.
  readable : ∀ m ∈ Mountain.all range.leafCount, m.Readable (join hash) range.leaves
  -- The proof for a leaf shows the leaf.
  complete : ∀ (index : UInt64) (leaf : Hash), range.leaves[index.toNat]? = some leaf →
    ∃ proof, range.prove? hash index = some proof ∧
      proof.verify hash leaf (range.root hash) = true
  -- Nothing else is shown by a proof that names the number of leaves, and not by another proof,
  -- unless pairs of digests collide.
  sound : ∀ (leaf : Hash) (proof : InclusionProof), proof.leafCount.toNat = range.leafCount →
    proof.verify hash leaf (range.root hash) = true →
      (proof.leafIndex.toNat < range.leafCount ∧
        range.leaves[proof.leafIndex.toNat]? = some leaf ∧
        range.prove? hash proof.leafIndex = some proof) ∨
      Collides hash (range.joined hash ++ proof.joined hash leaf)
  length_joined : ∀ (leaf : Hash) (proof : InclusionProof),
    ∀ pair ∈ range.joined hash ++ proof.joined hash leaf, pair.length = 64

/-- The proofs of a range show its leaves and nothing else, each leaf in one way. -/
theorem provesLeaves (hash : Hasher) {range : MountainRange} (hcount : range.leafCount < 2 ^ 64) :
    range.ProvesLeaves hash where
  prove?_eq_none_iff := fun _ => MountainRange.prove?_eq_none_iff
  readable := fun _ hm => Mountain.readable (join hash) hm
  complete := fun _ _ hleaf => exists_verify_prove? hleaf hcount
  sound := by
    intro leaf proof hleafCount h
    rcases prove?_of_verify hleafCount h with ⟨hleaf, hproof⟩ | hcollides
    · exact .inl ⟨(List.getElem?_eq_some_iff.1 hleaf).1, hleaf, hproof⟩
    · exact .inr hcollides
  length_joined := by
    intro leaf proof pair hpair
    rcases List.mem_append.1 hpair with hpair | hpair
    · exact MountainRange.length_of_mem_joined pair hpair
    · exact InclusionProof.length_of_mem_joined pair hpair

theorem third_of_three_proved :
    let leaf (number : UInt32) := Leaf.digest (blankLeaf number).encode
    let range := ofLeaves [blankLeaf 0, blankLeaf 1, blankLeaf 2]
    let proof : InclusionProof := ⟨2, 3, [join Keccak.digest (leaf 0) (leaf 1)]⟩
    proof.verify Keccak.digest (leaf 2) (range.root Keccak.digest) = true ∧
      ((proof.leafIndex.toNat < range.leafCount ∧
        range.leaves[proof.leafIndex.toNat]? = some (leaf 2) ∧
        range.prove? Keccak.digest proof.leafIndex = some proof) ∨
      Collides Keccak.digest
        (range.joined Keccak.digest ++ proof.joined Keccak.digest (leaf 2))) := by
  intro leaf range proof
  have hcount : range.leafCount < 2 ^ 64 := by decide +kernel
  have h : proof.verify Keccak.digest (leaf 2) (range.root Keccak.digest) = true := by
    decide +kernel
  have hproves := provesLeaves Keccak.digest hcount
  exact ⟨h, hproves.sound (leaf 2) proof rfl h⟩

end MountainRange

end FinalityBridge
