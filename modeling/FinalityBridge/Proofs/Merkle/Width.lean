import FinalityBridge.Proofs.ValidatorSet

/-!
# What a proof says about the number of leaves

The number of leaves is not hashed. A walk to the root meets it only in the layers in which its node
is the last one, from the right edge of the tree on: there a node of an odd layer has no sibling. So a
proof holds for just those numbers of leaves for which the way from its leaf comes to the right edge
in the same layer (`verify_siblings_iff`); all others ask for more siblings, or for fewer.
-/

namespace FinalityBridge.Merkle

namespace Layer

variable {Node : Type} {join : Node → Node → Node} {m n width position : Nat}

/-! ## The number of siblings on a way -/

/-- The number of items that a walk uses: one in every layer in which its node has a sibling. -/
def itemCount (width position : Nat) : Nat :=
  if width ≤ 1 then 0
  else if width % 2 = 1 ∧ position = width - 1 then itemCount ((width + 1) / 2) (position / 2)
  else itemCount ((width + 1) / 2) (position / 2) + 1
termination_by width
decreasing_by all_goals omega

theorem itemCount_last (hwidth : 2 ≤ width) (hlast : width % 2 = 1 ∧ position = width - 1) :
    itemCount width position = itemCount ((width + 1) / 2) (position / 2) := by
  rw [itemCount, if_neg (by omega), if_pos hlast]

theorem itemCount_sibling (hwidth : 2 ≤ width) (hlast : ¬(width % 2 = 1 ∧ position = width - 1)) :
    itemCount width position = itemCount ((width + 1) / 2) (position / 2) + 1 := by
  rw [itemCount, if_neg (by omega), if_neg hlast]

theorem length_items_of_climb? {node top : Node} {items rest : List Node}
    (h : climb? join width position node items = some (top, rest)) :
    items.length = itemCount width position + rest.length := by
  fun_induction climb? join width position node items with
  | case1 width position node items hwidth =>
    cases h
    rw [itemCount, if_pos hwidth, Nat.zero_add]
  | case2 width position node items hwidth hlast ih =>
    rw [ih h, itemCount_last (by omega) hlast]
  | case3 => cases h
  | case4 width position node hwidth hlast item items ih =>
    rw [List.length_cons, ih h, itemCount_sibling (by omega) hlast]
    omega

theorem length_path {layer : List Node} (h : position < layer.length) :
    (path join layer position).length = itemCount layer.length position := by
  obtain ⟨top, htop⟩ := exists_top? join (List.ne_nil_of_length_pos (Nat.zero_lt_of_lt h))
  have hclimb := climb?_path (List.getElem?_eq_getElem h) htop []
  rw [List.append_nil] at hclimb
  exact length_items_of_climb? hclimb

/-! ## The right edge -/

/-- Of trees of two widths, the way from a position is at the right edge in the same layers: there its
node is the last one. -/
def SameEdge (m n position : Nat) : Prop :=
  ∀ height, position / 2 ^ height = (m - 1) / 2 ^ height ↔ position / 2 ^ height = (n - 1) / 2 ^ height

-- A way leaves the last node of a layer to the last of the next one, so it is at the edge from the
-- bottom on, for one width only, or the layer above decides.
theorem sameEdge_iff (hm : position < m) (hn : position < n) :
    SameEdge m n position ↔ m = n ∨
      (position + 1 < m ∧ position + 1 < n ∧ SameEdge ((m + 1) / 2) ((n + 1) / 2) (position / 2)) := by
  have hup : ∀ width, position < width → ∀ height,
      ((position / 2) / 2 ^ height = ((width + 1) / 2 - 1) / 2 ^ height ↔
        position / 2 ^ (height + 1) = (width - 1) / 2 ^ (height + 1)) := by
    intro width hwidth height
    rw [show (width + 1) / 2 - 1 = (width - 1) / 2 by omega, Nat.div_div_eq_div_mul,
      Nat.div_div_eq_div_mul, ← Nat.pow_succ']
  constructor
  · intro h
    have hbottom := h 0
    rw [Nat.pow_zero, Nat.div_one, Nat.div_one, Nat.div_one] at hbottom
    by_cases hlast : position + 1 = n
    · exact .inl (by omega)
    · refine .inr ⟨by omega, by omega, fun height => ?_⟩
      rw [hup m hm, hup n hn]
      exact h (height + 1)
  · rintro (rfl | ⟨hm', hn', h⟩) height
    · rfl
    · cases height with
      | zero =>
        rw [Nat.pow_zero, Nat.div_one, Nat.div_one, Nat.div_one]
        omega
      | succ height =>
        rw [← hup m hm, ← hup n hn]
        exact h height

/-- Widths with the same edge make no difference to a walk. -/
theorem climb?_congr_width (hm : position < m) (hn : position < n) (h : SameEdge m n position)
    (node : Node) (items : List Node) :
    climb? join m position node items = climb? join n position node items := by
  induction hsize : n using Nat.strongRecOn generalizing m n position node items with
  | ind size ih =>
    subst hsize
    obtain rfl | ⟨hm', hn', hup⟩ := (sameEdge_iff hm hn).1 h
    · rfl
    · cases items with
      | nil => rw [climb?, if_neg (by omega), if_neg (by omega), climb?, if_neg (by omega), if_neg (by omega)]
      | cons item items =>
        rw [climb?_cons (by omega) (by omega), climb?_cons (by omega) (by omega)]
        exact ih _ (by omega) (by omega) (by omega) hup _ _ rfl

-- A node that is not at the right edge has more siblings on its way than one that is.
theorem itemCount_lt (h : position + 1 < width) :
    itemCount (position + 1) position < itemCount width position := by
  induction hsize : width using Nat.strongRecOn generalizing width position with
  | ind size ih =>
    subst hsize
    rw [@itemCount_sibling width position (by omega) (by omega)]
    by_cases hzero : position = 0
    · subst hzero
      rw [itemCount, if_pos (by omega)]
      exact Nat.zero_lt_succ _
    · by_cases hodd : position % 2 = 1
      · -- The last node of an even layer has a sibling as well, but on the way above the other has more.
        rw [itemCount_sibling (by omega) (by omega), show (position + 1 + 1) / 2 = position / 2 + 1 by omega]
        exact Nat.succ_lt_succ (ih _ (by omega) (by omega) rfl)
      · rw [itemCount_last (by omega) (by omega), show (position + 1 + 1) / 2 = position / 2 + 1 by omega]
        by_cases habove : (width + 1) / 2 = position / 2 + 1
        · rw [habove]
          exact Nat.lt_succ_self _
        · exact Nat.lt_succ_of_lt (ih _ (by omega) (by omega) rfl)

/-- Ways with as many siblings come to the right edge in the same layer. -/
theorem sameEdge_of_itemCount_eq (hm : position < m) (hn : position < n)
    (h : itemCount m position = itemCount n position) : SameEdge m n position := by
  induction hsize : n using Nat.strongRecOn generalizing m n position with
  | ind size ih =>
    subst hsize
    rw [sameEdge_iff hm hn]
    by_cases heq : m = n
    · exact .inl heq
    · have hm' : m ≠ position + 1 := by
        rintro rfl
        exact Nat.ne_of_lt (itemCount_lt (by omega)) h
      have hn' : n ≠ position + 1 := by
        rintro rfl
        exact Nat.ne_of_gt (itemCount_lt (by omega)) h
      rw [@itemCount_sibling m position (by omega) (by omega),
        @itemCount_sibling n position (by omega) (by omega), Nat.add_right_cancel_iff] at h
      exact .inr ⟨by omega, by omega, ih _ (by omega) (by omega) (by omega) h rfl⟩

end Layer

open Layer

variable {leaves : List Bytes} {leafIndex width : Nat} {content : Bytes} {proof : Proof}

/-! ## Numbers of leaves that a proof holds for -/

theorem verify_eq_true_iff {hash : Hasher} {root : Hash} {siblings : List Hash} :
    verify hash root siblings width leafIndex content = true ↔ leafIndex < width ∧
      climb? (join hash) width leafIndex (hash content) siblings = some (root, []) := by
  rw [verify, Bool.and_eq_true, decide_eq_true_eq, beq_iff_eq]

/-- The check makes no difference between numbers of leaves for which the way from the index comes to
the right edge in the same layer. -/
theorem verify_congr_width {m n : Nat} (hm : leafIndex < m) (hn : leafIndex < n)
    (h : SameEdge m n leafIndex) (hash : Hasher) (root : Hash) (siblings : List Hash)
    (content : Bytes) :
    verify hash root siblings m leafIndex content = verify hash root siblings n leafIndex content := by
  rw [Bool.eq_iff_iff, verify_eq_true_iff, verify_eq_true_iff, climb?_congr_width hm hn h]
  exact and_congr_left fun _ => iff_of_true hm hn

/-- The siblings of a leaf lead to the root for just those numbers of leaves for which the way from the
leaf comes to the right edge in the same layer as it does in the tree. -/
theorem verify_siblings_iff (hash : Hasher) (h : leaves[leafIndex]? = some content) (width : Nat) :
    verify hash (root hash leaves) (path (join hash) (leaves.map hash) leafIndex) width leafIndex
        content = true ↔
      leafIndex < width ∧ SameEdge width leaves.length leafIndex := by
  have hlt : leafIndex < leaves.length := (List.getElem?_eq_some_iff.1 h).1
  constructor
  · intro hverify
    obtain ⟨hwidth, hclimb⟩ := verify_eq_true_iff.1 hverify
    have hcount := length_items_of_climb? hclimb
    rw [length_path (by rwa [List.length_map]), List.length_map, List.length_nil] at hcount
    exact ⟨hwidth, sameEdge_of_itemCount_eq hwidth hlt hcount.symm⟩
  · rintro ⟨hwidth, hedge⟩
    rw [verify_congr_width hwidth hlt hedge]
    exact verify_path hash h

/-- The proof for a leaf holds for just those numbers of leaves for which the way from the leaf comes to
the right edge in the same layer as it does in the tree, and so does the proof for a member of a
validator set. -/
theorem proof_tied_to_edge :
    (∀ (hash : Hasher) (leaves : List Bytes) (leafIndex : Nat) (leaf : Bytes),
      leaves[leafIndex]? = some leaf →
      ∃ proof, prove? hash leaves leafIndex = some proof ∧ ∀ width,
        (verify hash (root hash leaves) proof.siblings width leafIndex leaf = true ↔
          leafIndex < width ∧ SameEdge width leaves.length leafIndex)) ∧
    ∀ (addresses : List Address) (position : UInt32), position.toNat < addresses.length →
      ∃ proof, MembershipProof.ofAddresses? addresses position = some proof ∧ ∀ set : ValidatorSet,
        set.root = root Keccak.digest (addresses.map (·.bytes)) →
        (set.verify proof = true ↔
          position < set.len ∧ SameEdge set.len.toNat addresses.length position.toNat) := by
  constructor
  · intro hash leaves leafIndex leaf hleaf
    refine ⟨_, by rw [prove?_eq_map, hleaf, Option.map_some], fun width => ?_⟩
    exact verify_siblings_iff hash hleaf width
  · intro addresses position hposition
    obtain ⟨proof, hproof⟩ := MembershipProof.exists_ofAddresses? hposition
    refine ⟨proof, hproof, fun set hroot => ?_⟩
    obtain ⟨address, haddress, rfl⟩ := MembershipProof.ofAddresses?_eq_some_iff.1 hproof
    have hleaf : (addresses.map (·.bytes))[position.toNat]? = some address.bytes := by
      rw [List.getElem?_map, haddress]
      rfl
    have hverify := verify_siblings_iff Keccak.digest hleaf set.len.toNat
    rw [List.length_map] at hverify
    rw [ValidatorSet.verify, hroot, UInt32.lt_iff_toNat_lt]
    exact hverify

/-- Three leaves of one byte. -/
def threeLeaves : List Bytes := [[0x61], [0x62], [0x63]]

/-- Three members of a validator set. -/
def threeMembers : List Address := [.ofNat 1, .ofNat 2, .ofNat 3]

-- The first of three comes to the right edge at the top, like the first of four.
theorem sameEdge_four_three : SameEdge 4 3 0 :=
  sameEdge_of_itemCount_eq (by decide) (by decide) (by simp [itemCount])

-- The proof for the first of three holds for four and not for five.
theorem first_of_three_tied_to_edge :
    (∃ proof, prove? Keccak.digest threeLeaves 0 = some proof ∧
      verify Keccak.digest (root Keccak.digest threeLeaves) proof.siblings 4 0 [0x61] = true ∧
      verify Keccak.digest (root Keccak.digest threeLeaves) proof.siblings 5 0 [0x61] = false) ∧
    ∃ proof, MembershipProof.ofAddresses? threeMembers 0 = some proof ∧
      (⟨root Keccak.digest (threeMembers.map (·.bytes)), 4, 0⟩ : ValidatorSet).verify proof = true ∧
      (⟨root Keccak.digest (threeMembers.map (·.bytes)), 5, 0⟩ : ValidatorSet).verify proof = false := by
  have hfive : ¬SameEdge 5 3 0 := fun hedge => absurd (hedge 2) (by decide)
  constructor
  · obtain ⟨proof, hproof, hverify⟩ := proof_tied_to_edge.1 Keccak.digest threeLeaves 0 [0x61] rfl
    refine ⟨proof, hproof, (hverify 4).2 ⟨by decide, sameEdge_four_three⟩, ?_⟩
    exact Bool.eq_false_iff.2 fun haccepted => hfive ((hverify 5).1 haccepted).2
  · obtain ⟨proof, hproof, hverify⟩ := proof_tied_to_edge.2 threeMembers 0 (by decide)
    refine ⟨proof, hproof, (hverify ⟨_, 4, 0⟩ rfl).2 ⟨by decide, sameEdge_four_three⟩, ?_⟩
    exact Bool.eq_false_iff.2 fun haccepted => hfive ((hverify ⟨_, 5, 0⟩ rfl).1 haccepted).2

-- Three leaves are taken for four, although nothing collides.
theorem not_tied_to_leafCount :
    ¬∀ (leaves : List Bytes) (leafIndex width : Nat) (proof : Proof),
      prove? Keccak.digest leaves leafIndex = some proof → width ≠ leaves.length →
      width ≤ 2 ^ 64 - 2 →
      verify Keccak.digest (root Keccak.digest leaves) proof.siblings width leafIndex proof.leaf =
          false ∨
        Collides Keccak.digest (rootInputs Keccak.digest leaves ++
          verifyInputs Keccak.digest proof.siblings width leafIndex proof.leaf) := by
  intro hall
  obtain hfalse | ⟨a, ha, b, hb, hne, heq⟩ :=
    hall threeLeaves 0 4 _ (prove?_eq_map ..) (by decide) (by decide)
  · have hleaf : threeLeaves[0]? = some [0x61] := rfl
    have htrue := (verify_siblings_iff Keccak.digest hleaf 4).2 ⟨by decide, sameEdge_four_three⟩
    exact Bool.noConfusion (htrue.symm.trans hfalse)
  · revert a b
    decide +kernel

end FinalityBridge.Merkle
