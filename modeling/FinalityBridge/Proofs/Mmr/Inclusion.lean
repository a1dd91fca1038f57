import FinalityBridge.Mmr.Range
import FinalityBridge.Proofs.Merkle.Membership
import FinalityBridge.Proofs.Mmr.Mountain
import FinalityBridge.Proofs.Scale.Lawful

/-!
# Inclusion in a mountain range

The proof for a leaf of a range leads from it to the root (`exists_verify_prove?`). The number of
leaves that a proof names is not under the root, so whoever makes a proof picks the shape of the
range that it is checked against. All the same, only the leaves of the range pass the check, unless
two of the byte strings that are hashed on both sides collide (`mem_of_verify_root`): a written leaf
is not as long as two digests, so nothing above the leaves can be passed off as one.
-/

namespace FinalityBridge

open Merkle Origin

variable {hash : Hasher} {P : Bytes → Prop}

namespace Mountain

/-! ## What the root of a range is made of -/

theorem within_foldl {part first : Origin} {others : List Origin}
    (h : Within part first ∨ part ∈ others) : Within part (others.foldl node first) := by
  induction others generalizing first with
  | nil =>
    rcases h with hfirst | hmem
    · exact hfirst
    · cases hmem
  | cons other others ih =>
    rw [List.foldl_cons]
    apply ih
    rcases h with hfirst | hmem
    · exact .inl (hfirst.left other)
    · rcases List.mem_cons.1 hmem with rfl | hmem
      · exact .inl (Within.self.right first)
      · exact .inr hmem

theorem within_bag? {row : List Origin} {part whole : Origin} (hpart : part ∈ row)
    (h : bag? node row = some whole) : Within part whole := by
  cases row with
  | nil => cases hpart
  | cons first others =>
    injection h with h
    rw [← h]
    apply within_foldl
    rcases List.mem_cons.1 hpart with rfl | hmem
    · exact .inl .self
    · exact .inr hmem

theorem within_ascend (position : Nat) (part : Origin) (siblings : List Origin) :
    Within part (ascend node position part siblings) := by
  induction siblings generalizing position part with
  | nil => exact .self
  | cons sibling siblings ih =>
    rw [ascend]
    exact (within_joinAt position part sibling).trans (ih _ _)

-- Whatever shape is claimed, the root that is reached from a node builds on the node.
theorem within_climb? {leafCount index : Nat} {part whole : Origin} {items : List Origin}
    (h : climb? node leafCount index part items = some whole) : Within part whole := by
  rcases exists_split (lt_of_climb? h) with ⟨left, m, right, hsplit, hcovers, hleft, -⟩
  rcases (climb?_eq_some_iff hsplit hcovers hleft).1 h with
    ⟨siblings, before, after, -, -, -, -, hbag⟩
  have hpeak : Within (ascend node (index - m.start) part siblings) whole :=
    within_bag? (List.mem_append_right _ List.mem_cons_self) hbag
  exact (within_ascend _ part siblings).trans hpeak

theorem grounded_root? {leaves : List Origin} {whole : Origin} (hleaves : ∀ n ∈ leaves, n.Grounded P)
    (h : root? node leaves = some whole) : whole.Grounded P :=
  root?_induction (fun _ _ ha hb => ⟨ha, hb⟩) hleaves h

end Mountain

/-- Where the root comes from to which a proof leads from a written leaf. -/
def InclusionProof.rootOrigin? (proof : InclusionProof) (content : Bytes) : Option Origin :=
  Mountain.climb? node proof.leafCount.toNat proof.leafIndex.toNat (leaf content)
    (proof.items.map given)

/-- The byte strings that are hashed when a proof is followed from a written leaf. -/
def InclusionProof.inputs (hash : Hasher) (proof : InclusionProof) (content : Bytes) : List Bytes :=
  inputsOf hash (proof.rootOrigin? content)

theorem InclusionProof.rootFrom?_eq_digest (proof : InclusionProof) (content : Bytes) :
    proof.rootFrom? hash (hash content) = (proof.rootOrigin? content).map (digest hash) := by
  rw [rootOrigin?, Mountain.map_climb? digest_node, map_digest_given]
  rfl

-- A proof that holds has few items.
theorem InclusionProof.length_items_of_verify {proof : InclusionProof} {leaf top : Hash}
    (h : proof.verify hash leaf top = true) : proof.items.length < 128 := by
  unfold InclusionProof.verify at h
  have hle := Mountain.length_items_of_climb? (beq_iff_eq.1 h)
  by_cases hzero : proof.leafCount.toNat = 0
  · rw [hzero, Nat.log2_zero] at hle
    omega
  · have hlog : proof.leafCount.toNat.log2 < 64 :=
      (Nat.log2_lt hzero).2 proof.leafCount.toNat_lt
    omega

namespace MountainRange

/-- The range over leaves that are appended one after the other. -/
def ofLeaves (leaves : List Leaf) : MountainRange :=
  leaves.foldl (fun range leaf => (range.pushLeaf leaf).2) empty

/-- Where the root of a range over written leaves comes from. -/
def rootOrigin? (contents : List Bytes) : Option Origin := Mountain.root? node (contents.map leaf)

/-- The byte strings that are hashed for the root of a range over written leaves. -/
def rootInputs (hash : Hasher) (contents : List Bytes) : List Bytes :=
  inputsOf hash (rootOrigin? contents)

theorem leaves_ofLeaves (leaves : List Leaf) :
    (ofLeaves leaves).leaves = leaves.map fun leaf => Leaf.digest leaf.encode := by
  have hfold : ∀ range : MountainRange,
      (leaves.foldl (fun range leaf => (range.pushLeaf leaf).2) range).leaves =
        range.leaves ++ leaves.map fun leaf => Leaf.digest leaf.encode := by
    induction leaves with
    | nil => intro range; simp
    | cons leaf leaves ih =>
      intro range
      rw [List.foldl_cons, ih]
      simp [pushLeaf, push]
  exact hfold empty

theorem root_eq_getD (range : MountainRange) :
    range.root hash = (Mountain.root? (join hash) range.leaves).getD .zero := rfl

theorem root_eq_digest (contents : List Bytes) :
    root hash ⟨contents.map hash⟩ = ((rootOrigin? contents).map (digest hash)).getD .zero := by
  rw [root_eq_getD, rootOrigin?, Mountain.map_root? digest_node, List.map_map]
  rfl

/-! ## Completeness -/

/-- The proof for a leaf: its siblings in the mountain that covers it, then the other peaks. -/
theorem prove?_eq_some {range : MountainRange} {index : UInt64} {left right : List Mountain}
    {m : Mountain} (hsplit : Mountain.all range.leafCount = left ++ m :: right)
    (hcovers : m.Covers index.toNat) (hleft : ∀ l ∈ left, l.start + l.size ≤ index.toNat)
    (hright : ∀ r ∈ right, index.toNat < r.start) (hlt : index.toNat < range.leafCount) :
    range.prove? hash index = some
      { leafIndex := index
        leafCount := UInt64.ofNat range.leafCount
        items := Layer.path (join hash) (m.leaves range.leaves) (index.toNat - m.start) ++
          (left ++ right).filterMap (range.peak? hash) } := by
  have hpartition := Mountain.partition_split hcovers hleft hright
  rw [← hsplit] at hpartition
  rw [prove?, if_pos hlt, hpartition]
  simp only [List.flatMap_singleton]

/-- Every leaf of a range has a proof, which leads to the root of the range. -/
theorem exists_verify_prove? {range : MountainRange} {index : UInt64} {leaf : Hash}
    (hleaf : range.leaves[index.toNat]? = some leaf) (hcount : range.leafCount < 2 ^ 64) :
    ∃ proof, range.prove? hash index = some proof ∧
      proof.verify hash leaf (range.root hash) = true := by
  have hlt : index.toNat < range.leafCount := (List.getElem?_eq_some_iff.1 hleaf).1
  rcases Mountain.exists_split hlt with ⟨left, m, right, hsplit, hcovers, hleft, hright⟩
  refine ⟨_, prove?_eq_some hsplit hcovers hleft hright hlt, ?_⟩
  rcases Mountain.exists_root? (join hash)
      (List.ne_nil_of_mem (List.mem_of_getElem? hleaf)) with ⟨top, htop⟩
  have hclimb := Mountain.climb?_path (join hash) hsplit hcovers hleft hleaf
  rw [htop] at hclimb
  rw [InclusionProof.verify, beq_iff_eq, root_eq_getD, htop, Option.getD_some]
  simp only [InclusionProof.rootFrom?, UInt64.toNat_ofNat_of_lt' hcount]
  exact hclimb

/-! ## Soundness -/

/-- What leads to the root of a range is one of its written leaves, unless byte strings collide. All
of them must differ in length from two digests. -/
theorem mem_of_verify_root {contents : List Bytes} {content : Bytes} {proof : InclusionProof}
    (hne : contents ≠ []) (hcontents : ∀ c ∈ contents, c.length ≠ 64) (hcontent : content.length ≠ 64)
    (h : proof.verify hash (hash content) (root hash ⟨contents.map hash⟩) = true) :
    content ∈ contents ∨
      Collides hash (rootInputs hash contents ++ proof.inputs hash content) := by
  rw [InclusionProof.verify, beq_iff_eq, InclusionProof.rootFrom?_eq_digest,
    Option.map_eq_some_iff] at h
  rcases h with ⟨other, hother, hdigest⟩
  have hne' : contents.map leaf ≠ [] := by simpa using hne
  rcases Mountain.exists_root? node hne' with ⟨known, hknown⟩
  have hroot : root hash ⟨contents.map hash⟩ = known.digest hash := by
    rw [root_eq_digest, rootOrigin?, hknown]
    rfl
  have hinputs : rootInputs hash contents = known.inputs hash := inputsOf_of_eq_some hknown
  have hinputs' : proof.inputs hash content = other.inputs hash := inputsOf_of_eq_some hother
  have hleaves : ∀ n ∈ contents.map leaf, n.Grounded (· ∈ contents) := by
    intro n hn
    rcases List.mem_map.1 hn with ⟨c, hc, rfl⟩
    exact hc
  rw [hinputs, hinputs']
  exact grounded_of_within hcontents hcontent (Mountain.grounded_root? hleaves hknown)
    (Mountain.within_climb? hother) (hdigest.trans hroot) (List.subset_append_right _ _)
    (List.subset_append_left _ _)

theorem root_ofLeaves (leaves : List Leaf) :
    (ofLeaves leaves).root hash = root hash ⟨(leaves.map Leaf.encode).map Keccak.digest⟩ := by
  rw [root_eq_getD, leaves_ofLeaves, root_eq_getD, List.map_map]
  rfl

/-- A leaf that is read from bytes which lead to the root of a range is a leaf of the range, unless
byte strings collide. Nothing is asked of the proof. -/
theorem mem_of_decode_of_verify {leaves : List Leaf} {encoded : Bytes} {leaf : Leaf}
    {proof : InclusionProof} (hne : leaves ≠ []) (hdecode : Leaf.decode encoded = .ok leaf)
    (h : proof.verify Keccak.digest (Leaf.digest encoded)
      ((ofLeaves leaves).root Keccak.digest) = true) :
    leaf ∈ leaves ∨ Collides Keccak.digest
      (rootInputs Keccak.digest (leaves.map Leaf.encode) ++ proof.inputs Keccak.digest encoded) := by
  have hencoded := Leaf.decode_eq_ok_iff.1 hdecode
  have hcontents : ∀ c ∈ leaves.map Leaf.encode, c.length ≠ 64 := by
    intro c hc
    rcases List.mem_map.1 hc with ⟨l, -, rfl⟩
    rw [Leaf.length_encode]
    decide
  have hcontent : encoded.length ≠ 64 := by
    rw [hencoded, Leaf.length_encode]
    decide
  rw [root_ofLeaves] at h
  rcases mem_of_verify_root (by simpa using hne) hcontents hcontent h with hmem | hcollides
  · rcases List.mem_map.1 hmem with ⟨l, hl, heq⟩
    rw [hencoded] at hdecode heq
    have hl' : Leaf.decode leaf.encode = .ok l := Leaf.decode_eq_ok_iff.2 heq.symm
    rw [hdecode] at hl'
    injection hl' with hl'
    exact .inl (hl' ▸ hl)
  · exact .inr hcollides

/-- A leaf after block `number`, all else in it being zero. -/
def blankLeaf (number : UInt32) : Leaf := ⟨⟨0⟩, number, .zero, .zero, ⟨0, 0, .zero⟩⟩

theorem second_mem_of_decode_of_verify :
    let leaves := [blankLeaf 0, blankLeaf 1]
    let proof : InclusionProof := ⟨1, 2, [Leaf.digest (blankLeaf 0).encode]⟩
    proof.verify Keccak.digest (Leaf.digest (blankLeaf 1).encode)
        ((ofLeaves leaves).root Keccak.digest) = true ∧
      (blankLeaf 1 ∈ leaves ∨ Collides Keccak.digest
        (rootInputs Keccak.digest (leaves.map Leaf.encode) ++
          proof.inputs Keccak.digest (blankLeaf 1).encode)) := by
  intro leaves proof
  have h : proof.verify Keccak.digest (Leaf.digest (blankLeaf 1).encode)
      ((ofLeaves leaves).root Keccak.digest) = true := by
    decide +kernel
  have hdecode : Leaf.decode (blankLeaf 1).encode = .ok (blankLeaf 1) :=
    Leaf.decode_eq_ok_iff.2 rfl
  exact ⟨h, mem_of_decode_of_verify (List.cons_ne_nil _ _) hdecode h⟩

end MountainRange

end FinalityBridge
