import FinalityBridge.Proofs.Merkle.Membership

/-!
# What a root binds

A root stands for one list of leaves: for their contents, their order and their number. The number is
not hashed, and a node that moves up unchanged is not hashed again, so trees of different widths are
told apart by the byte strings alone. They are, if no leaf is as long as two digests: then equal roots
come about in the same way, leaf by leaf (`eq_of_root_eq`).
-/

namespace FinalityBridge.Merkle

open Origin

variable {hash : Hasher} {P : Bytes → Prop}

namespace Origin

/-- The leaves that a digest is made of, from left to right. -/
def contents : Origin → List Bytes
  | given _ => []
  | leaf content => [content]
  | node left right => left.contents ++ right.contents

theorem contents_above (layer : List Origin) :
    (Layer.above node layer).flatMap contents = layer.flatMap contents := by
  fun_induction Layer.above node layer with
  | case1 left right rest ih => simp only [List.flatMap_cons, contents, ih, List.append_assoc]
  | case2 => rfl

theorem contents_top? {layer : List Origin} {top : Origin} (h : Layer.top? node layer = some top) :
    top.contents = layer.flatMap contents := by
  fun_induction Layer.top? node layer with
  | case1 => cases h
  | case2 only =>
    injection h with h
    rw [h, List.flatMap_singleton]
  | case3 left right rest ih => rw [ih h, contents_above]

/-- Equal digests that are grounded in leaves which cannot be mistaken for two joined digests come
about in the same way, unless byte strings collide. -/
theorem eq_or_collides_of_grounded {inputs : List Bytes} {a b : Origin}
    (hP : ∀ c, P c → c.length ≠ 64) (ha : a.Grounded P) (hb : b.Grounded P)
    (h : a.digest hash = b.digest hash) (hsub : a.inputs hash ⊆ inputs)
    (hsub' : b.inputs hash ⊆ inputs) : a = b ∨ Collides hash inputs := by
  induction a generalizing b with
  | given => cases ha
  | leaf content =>
    cases b with
    | given => cases hb
    | leaf content' =>
      rcases eq_or_collides (hsub List.mem_cons_self) (hsub' List.mem_cons_self) h with
          rfl | hcollides
      · exact .inl rfl
      · exact .inr hcollides
    | node left' right' => exact .inr (collides_of_leaf_of_node (hP content ha) h hsub hsub')
  | node left right ihLeft ihRight =>
    cases b with
    | given => cases hb
    | leaf content' => exact .inr (collides_of_leaf_of_node (hP content' hb) h.symm hsub' hsub)
    | node left' right' =>
      have hleftSub := List.Subset.trans ((Within.self.left right).inputs_subset hash) hsub
      have hrightSub := List.Subset.trans ((Within.self.right left).inputs_subset hash) hsub
      have hleftSub' := List.Subset.trans ((Within.self.left right').inputs_subset hash) hsub'
      have hrightSub' := List.Subset.trans ((Within.self.right left').inputs_subset hash) hsub'
      rcases eq_or_collides_of_node h hsub hsub' with ⟨hleft, hright⟩ | hcollides
      · rcases ihLeft ha.1 hb.1 hleft hleftSub hleftSub' with rfl | hcollides
        · rcases ihRight ha.2 hb.2 hright hrightSub hrightSub' with rfl | hcollides
          · exact .inl rfl
          · exact .inr hcollides
        · exact .inr hcollides
      · exact .inr hcollides

end Origin

variable {leaves leaves' : List Bytes}

theorem exists_rootOrigin? (h : leaves ≠ []) : ∃ tree, rootOrigin? leaves = some tree := by
  apply Layer.exists_top? node
  rwa [ne_eq, List.map_eq_nil_iff]

theorem digest_of_rootOrigin? {tree : Origin} (h : rootOrigin? leaves = some tree) :
    tree.digest hash = root hash leaves := by
  rw [root_eq_digest, h]
  rfl

-- The tree over a list of leaves holds just these, in order.
theorem contents_of_rootOrigin? {tree : Origin} (h : rootOrigin? leaves = some tree) :
    tree.contents = leaves := by
  rw [contents_top? h, List.flatMap_map]
  exact List.flatMap_singleton' leaves

theorem grounded_of_rootOrigin? {tree : Origin} (hleaves : ∀ c ∈ leaves, P c)
    (h : rootOrigin? leaves = some tree) : tree.Grounded P := by
  apply Layer.top?_induction (P := fun n => n.Grounded P) (fun _ _ ha hb => ⟨ha, hb⟩) _ h
  intro n hn
  rcases List.mem_map.1 hn with ⟨c, hc, rfl⟩
  exact hleaves c hc

/-- Lists of leaves with the same root are the same, of whatever lengths, unless byte strings collide.
All leaves must differ in length from two digests. -/
theorem eq_of_root_eq (hne : leaves ≠ []) (hne' : leaves' ≠ [])
    (hleaves : ∀ c ∈ leaves, c.length ≠ 64) (hleaves' : ∀ c ∈ leaves', c.length ≠ 64)
    (h : root hash leaves = root hash leaves') :
    leaves = leaves' ∨ Collides hash (rootInputs hash leaves ++ rootInputs hash leaves') := by
  rcases exists_rootOrigin? hne with ⟨tree, htree⟩
  rcases exists_rootOrigin? hne' with ⟨tree', htree'⟩
  have hinputs : rootInputs hash leaves = tree.inputs hash := inputsOf_of_eq_some htree
  have hinputs' : rootInputs hash leaves' = tree'.inputs hash := inputsOf_of_eq_some htree'
  rw [← digest_of_rootOrigin? htree, ← digest_of_rootOrigin? htree'] at h
  rw [hinputs, hinputs']
  rcases eq_or_collides_of_grounded (fun _ hc => hc) (grounded_of_rootOrigin? hleaves htree)
    (grounded_of_rootOrigin? hleaves' htree') h (List.subset_append_left _ _)
    (List.subset_append_right _ _) with rfl | hcollides
  · exact .inl ((contents_of_rootOrigin? htree).symm.trans (contents_of_rootOrigin? htree'))
  · exact .inr hcollides

end FinalityBridge.Merkle
