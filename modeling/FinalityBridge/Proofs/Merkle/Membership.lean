import FinalityBridge.Merkle.Tree
import FinalityBridge.Proofs.Merkle.Origin

/-!
# Membership under a Merkle root

The siblings of a leaf lead to the root (`verify_path`). Conversely, what leads to the root from an
index is the leaf at that index with its siblings, unless two of the byte strings that are hashed on
both sides collide (`eq_of_verify`). So the check accepts the leaves with their proofs and nothing
else (`verify_root_complete_and_sound`).
-/

namespace FinalityBridge.Merkle

open Origin

variable {hash : Hasher}

theorem root_eq_top? (hash : Hasher) (leaves : List Bytes) :
    root hash leaves = (Layer.top? (join hash) (leaves.map hash)).getD .zero := by
  rw [root, Layer.root?_eq_top?]

-- A proof goes up layers of its own, and comes to the same root.
theorem prove?_eq_map (hash : Hasher) (leaves : List Bytes) (leafIndex : Nat) :
    prove? hash leaves leafIndex = leaves[leafIndex]?.map fun leaf =>
      { root := root hash leaves
        siblings := Layer.path (join hash) (leaves.map hash) leafIndex
        leafCount := leaves.length
        leafIndex
        leaf } := by
  rw [prove?, Layer.ascent_eq]
  cases hleaf : leaves[leafIndex]? with
  | none => rfl
  | some leaf =>
    have hne : leaves.map hash ≠ [] :=
      mt List.map_eq_nil_iff.1 (List.ne_nil_of_mem (List.mem_of_getElem? hleaf))
    obtain ⟨top, htop⟩ := Layer.exists_top? (join hash) hne
    rw [root_eq_top?, htop]
    rfl

/-- Where the root over a list of leaves comes from. -/
def rootOrigin? (leaves : List Bytes) : Option Origin := Layer.top? node (leaves.map leaf)

/-- The byte strings that are hashed for the root over a list of leaves. -/
def rootInputs (hash : Hasher) (leaves : List Bytes) : List Bytes :=
  inputsOf hash (rootOrigin? leaves)

/-- Where the node comes from to which siblings lead from a leaf, with the siblings left over. -/
def verifyOrigin? (siblings : List Hash) (leafCount leafIndex : Nat) (content : Bytes) :
    Option (Origin × List Origin) :=
  Layer.climb? node leafCount leafIndex (leaf content) (siblings.map given)

/-- The byte strings that are hashed when a leaf is checked against a root. -/
def verifyInputs (hash : Hasher) (siblings : List Hash) (leafCount leafIndex : Nat)
    (content : Bytes) : List Bytes :=
  inputsOf hash ((verifyOrigin? siblings leafCount leafIndex content).map Prod.fst)

theorem map_digest_given (hash : Hasher) (digests : List Hash) :
    (digests.map given).map (digest hash) = digests := by
  rw [List.map_map]
  exact List.map_id digests

theorem root_eq_digest (leaves : List Bytes) :
    root hash leaves = ((rootOrigin? leaves).map (digest hash)).getD .zero := by
  rw [root_eq_top?, rootOrigin?, Layer.map_top? digest_node, List.map_map]
  rfl

theorem verifyOrigin?_map_digest (siblings : List Hash) (leafCount leafIndex : Nat)
    (content : Bytes) :
    (verifyOrigin? siblings leafCount leafIndex content).map
        (Prod.map (digest hash) (List.map (digest hash))) =
      Layer.climb? (join hash) leafCount leafIndex (hash content) siblings := by
  rw [verifyOrigin?, Layer.map_climb? digest_node, map_digest_given]
  rfl

/-- The siblings of a leaf lead from it to the root. -/
theorem verify_path (hash : Hasher) {leaves : List Bytes} {leafIndex : Nat} {content : Bytes}
    (h : leaves[leafIndex]? = some content) :
    verify hash (root hash leaves) (Layer.path (join hash) (leaves.map hash) leafIndex)
      leaves.length leafIndex content = true := by
  have hlt : leafIndex < leaves.length := (List.getElem?_eq_some_iff.1 h).1
  have hnode : (leaves.map hash)[leafIndex]? = some (hash content) := by
    rw [List.getElem?_map, h]
    rfl
  have hne : leaves.map hash ≠ [] := List.ne_nil_of_mem (List.mem_of_getElem? hnode)
  rcases Layer.exists_top? (join hash) hne with ⟨top, htop⟩
  have hclimb := Layer.climb?_path hnode htop []
  rw [List.length_map, List.append_nil] at hclimb
  rw [verify, root_eq_top?, htop, hclimb]
  simpa using hlt

-- A walk from any node by any items to the digest at the top of a layer starts from the node of
-- the layer and uses its siblings, unless byte strings collide.
theorem eq_of_climb? {inputs : List Bytes} {layer items rest : List Origin} {position : Nat}
    {start known top whole : Origin} (hknown : layer[position]? = some known)
    (hclimb : Layer.climb? node layer.length position start items = some (top, rest))
    (hwhole : Layer.top? node layer = some whole) (h : top.digest hash = whole.digest hash)
    (hsub : top.inputs hash ⊆ inputs) (hsub' : whole.inputs hash ⊆ inputs) :
    (start.digest hash = known.digest hash ∧
      items.map (digest hash) = (Layer.path node layer position ++ rest).map (digest hash)) ∨
      Collides hash inputs := by
  induction hn : layer.length using Nat.strongRecOn
    generalizing layer position start known items with
  | ind n ih =>
    subst hn
    have hlt : position < layer.length := (List.getElem?_eq_some_iff.1 hknown).1
    by_cases hwidth : 2 ≤ layer.length
    · have hlen := Layer.length_above node layer
      rw [Layer.top?_of_two_le hwidth] at hwhole
      rw [Layer.path_of_two_le hwidth]
      cases hother : layer[Layer.sibling position]? with
      | none =>
        have hlast := (Layer.getElem?_sibling_eq_none_iff hlt).1 hother
        rw [Layer.climb?_last hwidth hlast, ← hlen] at hclimb
        exact ih _ (by omega) (Layer.getElem?_above_half_last hknown hother) hclimb hwhole rfl
      | some other =>
        have hlast : ¬(layer.length % 2 = 1 ∧ position = layer.length - 1) := by
          rw [← Layer.getElem?_sibling_eq_none_iff hlt, hother]
          exact Option.some_ne_none other
        cases items with
        | nil =>
          rw [Layer.climb?.eq_def, if_neg (by omega), if_neg hlast] at hclimb
          cases hclimb
        | cons item items =>
          rw [Layer.climb?_cons hwidth hlast, ← hlen] at hclimb
          have habove := Layer.getElem?_above_half node hknown hother
          rcases ih _ (by omega) habove hclimb hwhole rfl with ⟨heq, hitems⟩ | hcollides
          · have htop := (within_climb? hclimb).inputs_subset hash
            have hlayer := (within_top? (List.mem_of_getElem? habove) hwhole).inputs_subset hash
            rcases eq_or_collides_of_joinAt heq (fun _ hmem => hsub (htop hmem))
              (fun _ hmem => hsub' (hlayer hmem)) with ⟨hstart, hitem⟩ | hcollides
            · exact .inl ⟨hstart, by simp [hitem, hitems]⟩
            · exact .inr hcollides
          · exact .inr hcollides
    · obtain ⟨only, rfl⟩ : ∃ only, layer = [only] := List.length_eq_one_iff.1 (by omega)
      obtain rfl : position = 0 := by simpa using hlt
      rw [Layer.climb?.eq_def, if_pos (by simp)] at hclimb
      simp only [Layer.top?, Option.some.injEq] at hwhole
      simp only [List.getElem?_cons_zero, Option.some.injEq] at hknown
      simp only [Option.some.injEq, Prod.mk.injEq] at hclimb
      rw [← hknown, hclimb.1, hclimb.2, hwhole]
      exact .inl ⟨h, by simp [Layer.path]⟩

/-- What leads to the root over a list of leaves from an index is the leaf at that index with its
siblings, unless byte strings collide. -/
theorem eq_of_verify {leaves : List Bytes} {siblings : List Hash} {leafIndex : Nat} {content : Bytes}
    (h : verify hash (root hash leaves) siblings leaves.length leafIndex content = true) :
    (leaves[leafIndex]? = some content ∧
      siblings = Layer.path (join hash) (leaves.map hash) leafIndex) ∨
      Collides hash
        (rootInputs hash leaves ++ verifyInputs hash siblings leaves.length leafIndex content) := by
  rw [verify, Bool.and_eq_true, decide_eq_true_eq, beq_iff_eq] at h
  rcases h with ⟨hlt, hclimb⟩
  -- Follow the walk and the building of the root over origins.
  rw [← verifyOrigin?_map_digest, Option.map_eq_some_iff] at hclimb
  rcases hclimb with ⟨⟨top, rest⟩, hwalk, htop⟩
  rw [Prod.map_apply, Prod.mk.injEq, List.map_eq_nil_iff] at htop
  rcases htop with ⟨htop, rfl⟩
  have hne : leaves.map leaf ≠ [] := by
    rw [ne_eq, List.map_eq_nil_iff]
    exact List.ne_nil_of_length_pos (by omega)
  rcases Layer.exists_top? node hne with ⟨whole, hwhole⟩
  have hroot : root hash leaves = whole.digest hash := by
    rw [root_eq_digest, rootOrigin?, hwhole]
    rfl
  have hinputs : rootInputs hash leaves = whole.inputs hash := inputsOf_of_eq_some hwhole
  have hinputs' : verifyInputs hash siblings leaves.length leafIndex content = top.inputs hash :=
    inputsOf_of_eq_some (by rw [hwalk, Option.map_some])
  rw [hinputs, hinputs']
  have hknown : (leaves.map leaf)[leafIndex]? = some (leaf leaves[leafIndex]) := by
    rw [List.getElem?_map, List.getElem?_eq_getElem hlt]
    rfl
  rw [verifyOrigin?, ← List.length_map leaf] at hwalk
  rcases eq_of_climb? hknown hwalk hwhole (htop.trans hroot) (List.subset_append_right _ _)
    (List.subset_append_left _ _) with ⟨hcontent, hsiblings⟩ | hcollides
  · have hmem : content ∈ whole.inputs hash ++ top.inputs hash :=
      List.mem_append_right _ ((within_climb? hwalk).inputs_subset hash List.mem_cons_self)
    have hmem' : leaves[leafIndex] ∈ whole.inputs hash ++ top.inputs hash :=
      List.mem_append_left _ ((within_top? (List.mem_of_getElem? hknown) hwhole).inputs_subset hash
        List.mem_cons_self)
    rw [map_digest_given, List.append_nil, Layer.map_path digest_node, List.map_map] at hsiblings
    rcases eq_or_collides hmem hmem' hcontent with heq | hcollides
    · exact .inl ⟨by rw [List.getElem?_eq_getElem hlt, heq], hsiblings⟩
    · exact .inr hcollides
  · exact .inr hcollides

/-! ## What the check accepts -/

/-- A leaf stands at an index of a list, and the siblings are those that its proof lists. -/
def Proves (hash : Hasher) (leaves : List Bytes) (siblings : List Hash) (leafIndex : Nat)
    (content : Bytes) : Prop :=
  leafIndex < leaves.length ∧ leaves[leafIndex]? = some content ∧
    (prove? hash leaves leafIndex).map Proof.siblings = some siblings

theorem proves_iff {leaves : List Bytes} {siblings : List Hash} {leafIndex : Nat}
    {content : Bytes} :
    Proves hash leaves siblings leafIndex content ↔
      leaves[leafIndex]? = some content ∧
        siblings = Layer.path (join hash) (leaves.map hash) leafIndex := by
  have hprove : ∀ h : leaves[leafIndex]? = some content,
      (prove? hash leaves leafIndex).map Proof.siblings =
        some (Layer.path (join hash) (leaves.map hash) leafIndex) := by
    intro h
    rw [prove?_eq_map, h]
    rfl
  constructor
  · rintro ⟨-, h, hsiblings⟩
    rw [hprove h, Option.some.injEq] at hsiblings
    exact ⟨h, hsiblings.symm⟩
  · rintro ⟨h, rfl⟩
    exact ⟨(List.getElem?_eq_some_iff.1 h).1, h, hprove h⟩

/-- The check against the root over a list of leaves takes the leaf at an index with the siblings of
its proof, and nothing else unless byte strings collide. -/
theorem verify_root_complete_and_sound (hash : Hasher) (leaves : List Bytes) (siblings : List Hash)
    (leafIndex : Nat) (content : Bytes) :
    (Proves hash leaves siblings leafIndex content →
      verify hash (root hash leaves) siblings leaves.length leafIndex content = true) ∧
    (verify hash (root hash leaves) siblings leaves.length leafIndex content = true →
      Proves hash leaves siblings leafIndex content ∨
        Collides hash
          (rootInputs hash leaves ++ verifyInputs hash siblings leaves.length leafIndex content)) := by
  constructor
  · intro h
    rcases proves_iff.1 h with ⟨hleaf, rfl⟩
    exact verify_path hash hleaf
  · intro h
    rcases eq_of_verify h with hproof | hcollides
    · exact .inl (proves_iff.2 hproof)
    · exact .inr hcollides

end FinalityBridge.Merkle
