import Mathlib.Data.List.Perm.Basic
import FinalityBridge.Bitfield.Challenge
import FinalityBridge.Proofs.Bitfield.Positions

/-!
# The sample of a challenge

Whatever the seed, a challenge picks claimed positions only (`contains_of_mem_ones_challenge`) and
exactly as many as it asks for, or all if fewer are claimed (`length_ones_challenge`). Asking for more
keeps what was asked for (`isSubsetOf_challenge`). A claim with a quorum is always sampled in full
(`sampleSize_le_quorum`).
-/

namespace FinalityBridge

section Draw

variable {α : Type}

-- What a draw leaves at the front is what it took, up to order.
theorem cons_set_perm {rest : List α} {offset : Nat} {entry : α} (h : rest[offset]? = some entry)
    (head : α) : (entry :: rest.set offset head).Perm (head :: rest) := by
  rcases List.getElem?_eq_some_iff.1 h with ⟨hlt, rfl⟩
  rw [List.set_eq_take_append_cons_drop, if_pos hlt]
  have hsplit : rest = rest.take offset ++ rest[offset] :: rest.drop (offset + 1) := by
    rw [List.getElem_cons_drop, List.take_append_drop]
  have hfront : (rest[offset] :: (rest.take offset ++ head :: rest.drop (offset + 1))).Perm
      (rest[offset] :: head :: (rest.take offset ++ rest.drop (offset + 1))) :=
    List.perm_middle.cons _
  have hback : (head :: rest[offset] :: (rest.take offset ++ rest.drop (offset + 1))).Perm
      (head :: rest) := by
    apply List.Perm.cons
    exact List.perm_middle.symm.trans (List.Perm.of_eq hsplit.symm)
  exact hfront.trans ((List.Perm.swap _ _ _).trans hback)

/-- Nothing is drawn twice, and nothing that is not there. -/
theorem draw_subperm (entries : List α) (offsets : List Nat) : (draw entries offsets).Subperm entries := by
  fun_induction draw entries offsets with
  | case1 head rest offsets ih => exact (List.subperm_cons head).2 ih
  | case2 head rest offset offsets entry hentry ih =>
    have hcons := (List.subperm_cons entry).2 ih
    exact hcons.trans (cons_set_perm hentry head).subperm
  | case3 => exact List.nil_subperm
  | case4 => exact List.nil_subperm

-- If every offset is in range when its turn comes, none of the draws fails.
theorem length_draw {entries : List α} {offsets : List Nat}
    (h : ∀ k, (hk : k < offsets.length) → offsets[k] < entries.length - k) :
    (draw entries offsets).length = offsets.length := by
  fun_induction draw entries offsets with
  | case1 head rest offsets ih =>
    have hrest : ∀ k, (hk : k < offsets.length) → offsets[k] < rest.length - k := by
      intro k hk
      have := h (k + 1) (by simpa using hk)
      simp only [List.getElem_cons_succ, List.length_cons] at this
      omega
    rw [List.length_cons, ih hrest, List.length_cons]
  | case2 head rest offset offsets entry hentry ih =>
    have hrest : ∀ k, (hk : k < offsets.length) → offsets[k] < (rest.set offset head).length - k := by
      intro k hk
      have := h (k + 1) (by simpa using hk)
      simp only [List.getElem_cons_succ, List.length_cons] at this
      rw [List.length_set]
      omega
    rw [List.length_cons, ih hrest, List.length_cons]
  | case3 head rest offset offsets hentry =>
    have hlt := h 0 (by simp)
    have hge := List.getElem?_eq_none_iff.1 hentry
    simp only [List.getElem_cons_zero, List.length_cons] at hlt
    omega
  | case4 offsets entries h₁ h₂ =>
    cases offsets with
    | nil => rfl
    | cons offset offsets =>
      cases entries with
      | nil =>
        have hlt := h 0 (by simp)
        simp at hlt
      | cons head rest =>
        cases offset with
        | zero => exact (h₁ head rest offsets rfl rfl).elim
        | succ offset => exact (h₂ head rest offset offsets rfl rfl).elim

-- More offsets draw more entries, after the same ones.
theorem isPrefix_draw {entries : List α} {offsets more : List Nat} (h : offsets <+: more) :
    draw entries offsets <+: draw entries more := by
  fun_induction draw entries offsets generalizing more with
  | case1 head rest offsets ih =>
    rcases h with ⟨others, rfl⟩
    rw [List.cons_append, draw, List.cons_prefix_cons]
    exact ⟨rfl, ih (List.prefix_append offsets others)⟩
  | case2 head rest offset offsets entry hentry ih =>
    rcases h with ⟨others, rfl⟩
    rw [List.cons_append, draw, hentry, List.cons_prefix_cons]
    exact ⟨rfl, ih (List.prefix_append offsets others)⟩
  | case3 => exact List.nil_prefix
  | case4 => exact List.nil_prefix

end Draw

namespace Bitfield

/-! ## The offsets -/

theorem length_drawOffsets (seed : Hash) (m n : Nat) : (drawOffsets seed m n).length = n := by
  rw [drawOffsets, List.length_map, List.length_range]

-- As long as entries are left, the offset of a draw is that of one of them.
theorem lt_of_getElem?_drawOffsets {seed : Hash} {m n k offset : Nat} (hn : n ≤ m)
    (h : (drawOffsets seed m n)[k]? = some offset) : k + offset < m := by
  rcases List.getElem?_eq_some_iff.1 h with ⟨hk, rfl⟩
  rw [length_drawOffsets] at hk
  simp only [drawOffsets, List.getElem_map, List.getElem_range]
  have hlt : drawOffset seed k (m - k) < m - k := Nat.mod_lt _ (by omega)
  omega

-- An offset does not depend on how many draws follow.
theorem isPrefix_drawOffsets (seed : Hash) (m : Nat) {n more : Nat} (h : n ≤ more) :
    drawOffsets seed m n <+: drawOffsets seed m more := by
  apply List.IsPrefix.map
  rw [← Nat.add_sub_cancel' h, List.range_add]
  exact List.prefix_append _ _

/-! ## The drawn positions -/

/-- The claimed positions that are drawn by given offsets, as a bitfield. -/
def sampleBy (claimed : Bitfield) (offsets : List Nat) : Bitfield :=
  (draw claimed.ones offsets).foldl insert (empty claimed.len)

theorem mem_ones_sampleBy {claimed : Bitfield} {offsets : List Nat} {position : UInt32} :
    position ∈ (claimed.sampleBy offsets).ones ↔ position ∈ draw claimed.ones offsets := by
  have hlt : ∀ p ∈ draw claimed.ones offsets, p < (empty claimed.len).len := by
    intro p hp
    have hclaimed := mem_ones.1 ((draw_subperm claimed.ones offsets).subset hp)
    show p < claimed.len
    exact UInt32.lt_iff_toNat_lt.2 (lt_of_contains hclaimed)
  rw [mem_ones, sampleBy, contains_foldl_insert hlt, contains_empty, Bool.false_or,
    decide_eq_true_eq]

theorem len_sampleBy (claimed : Bitfield) (offsets : List Nat) :
    (claimed.sampleBy offsets).len = claimed.len := by
  rw [sampleBy, len_foldl_insert]
  rfl

/-- The positions that are drawn for a challenge, in the order in which they are drawn. -/
def drawn (seed : Hash) (claimed : Bitfield) (size : Nat) : List UInt32 :=
  draw claimed.ones (drawOffsets seed claimed.ones.length (min claimed.ones.length size))

theorem drawn_subperm (seed : Hash) (claimed : Bitfield) (size : Nat) :
    (drawn seed claimed size).Subperm claimed.ones :=
  draw_subperm _ _

theorem nodup_drawn (seed : Hash) (claimed : Bitfield) (size : Nat) :
    (drawn seed claimed size).Nodup := by
  rcases drawn_subperm seed claimed size with ⟨l, hperm, hsub⟩
  exact hperm.nodup_iff.1 (hsub.nodup claimed.nodup_ones)

theorem length_drawn (seed : Hash) (claimed : Bitfield) (size : Nat) :
    (drawn seed claimed size).length = min claimed.count size := by
  rw [drawn, length_draw, length_drawOffsets, length_ones]
  intro k hk
  have hlt := lt_of_getElem?_drawOffsets (Nat.min_le_left _ _) (List.getElem?_eq_getElem hk)
  omega

-- A larger sample begins with the smaller one.
theorem isPrefix_drawn (seed : Hash) (claimed : Bitfield) {size more : Nat} (h : size ≤ more) :
    drawn seed claimed size <+: drawn seed claimed more := by
  apply isPrefix_draw
  apply isPrefix_drawOffsets
  omega

theorem mem_ones_challenge {seed : Hash} {claimed : Bitfield} {size : Nat} {position : UInt32} :
    position ∈ (challenge seed claimed size).ones ↔ position ∈ drawn seed claimed size :=
  mem_ones_sampleBy

-- A challenge asks for claimed positions only.
theorem contains_of_mem_ones_challenge {seed : Hash} {claimed : Bitfield} {size : Nat}
    {position : UInt32} (h : position ∈ (challenge seed claimed size).ones) :
    claimed.contains position = true :=
  mem_ones.1 ((drawn_subperm seed claimed size).subset (mem_ones_challenge.1 h))

theorem perm_ones_challenge (seed : Hash) (claimed : Bitfield) (size : Nat) :
    (challenge seed claimed size).ones.Perm (drawn seed claimed size) := by
  apply (List.perm_ext_iff_of_nodup (nodup_ones _) (nodup_drawn seed claimed size)).2
  intro position
  exact mem_ones_challenge

/-- A challenge asks for as many positions as it is to, unless fewer are claimed. -/
theorem length_ones_challenge (seed : Hash) (claimed : Bitfield) (size : Nat) :
    (challenge seed claimed size).ones.length = min claimed.count size := by
  rw [(perm_ones_challenge seed claimed size).length_eq, length_drawn]

theorem len_challenge (seed : Hash) (claimed : Bitfield) (size : Nat) :
    (challenge seed claimed size).len = claimed.len :=
  len_sampleBy claimed _

theorem isSubsetOf_challenge_claimed (seed : Hash) (claimed : Bitfield) (size : Nat) :
    (challenge seed claimed size).isSubsetOf claimed = true := by
  apply isSubsetOf_iff.2
  intro position h
  exact contains_of_mem_ones_challenge (mem_ones.2 h)

theorem isSubsetOf_challenge (seed : Hash) (claimed : Bitfield) {size more : Nat}
    (h : size ≤ more) :
    (challenge seed claimed size).isSubsetOf (challenge seed claimed more) = true := by
  apply isSubsetOf_iff.2
  intro position hposition
  apply mem_ones.1
  apply mem_ones_challenge.2
  exact (isPrefix_drawn seed claimed h).subset (mem_ones_challenge.1 (mem_ones.2 hposition))

/-- What a challenge for `size` of the claimed positions is. -/
structure IsSample (seed : Hash) (claimed : Bitfield) (size : Nat) : Prop where
  -- It covers the validators that the claim covers, in as many words as these need,
  len_eq : (challenge seed claimed size).len = claimed.len
  length_words : (challenge seed claimed size).words.length = wordsFor claimed.len.toNat
  bit_eq_false : ∀ p, claimed.len.toNat ≤ p → bit (challenge seed claimed size).words p = false
  -- and holds claimed positions only, as many as asked for or all.
  subset_claimed : (challenge seed claimed size).isSubsetOf claimed = true
  count_eq : (challenge seed claimed size).count = min size claimed.count
  -- Each draw takes an entry that is still in the list, so none is drawn twice.
  offset_lt : ∀ k offset,
    (drawOffsets seed claimed.count (min claimed.count size))[k]? = some offset →
      k + offset < claimed.count
  nodup_drawn : (drawn seed claimed size).Nodup
  perm_drawn : (challenge seed claimed size).ones.Perm (drawn seed claimed size)
  -- Asking for more keeps what is asked for already.
  subset_more : ∀ more, size ≤ more →
    (challenge seed claimed size).isSubsetOf (challenge seed claimed more) = true

/-- Whatever the seed, a challenge is a sample of the claim, of the size that it is to have. -/
theorem challenge_isSample (seed : Hash) (claimed : Bitfield) (size : Nat) :
    IsSample seed claimed size where
  len_eq := len_challenge seed claimed size
  length_words := by rw [(challenge seed claimed size).length_words, len_challenge]
  bit_eq_false := by
    intro p hp
    apply (challenge seed claimed size).bit_eq_false
    rwa [len_challenge]
  subset_claimed := isSubsetOf_challenge_claimed seed claimed size
  count_eq := by rw [← length_ones, length_ones_challenge, Nat.min_comm]
  offset_lt := fun _ _ h => lt_of_getElem?_drawOffsets (Nat.min_le_left _ _) h
  nodup_drawn := nodup_drawn seed claimed size
  perm_drawn := perm_ones_challenge seed claimed size
  subset_more := fun _ h => isSubsetOf_challenge seed claimed h

end Bitfield

-- With two validators or more, a quorum is large enough for a sample.
theorem sampleSize_le_quorum {validators : UInt32} (h : 2 ≤ validators.toNat) :
    sampleSize validators ≤ quorum validators := by
  unfold sampleSize quorum
  omega

-- Nobody can claim a quorum of an empty set.
theorem Bitfield.one_le_len_of_quorum {claimed : Bitfield} (hquorum : quorum claimed.len ≤ claimed.count) :
    1 ≤ claimed.len.toNat := by
  have hcount := claimed.count_le
  unfold quorum at hquorum
  omega

/-- A claim with a quorum is sampled in full. Only the claim over a single validator is too small
for its sample, which is then that validator. -/
theorem Bitfield.length_ones_challenge_of_quorum {claimed : Bitfield} (seed : Hash)
    (hpos : 1 ≤ claimed.len.toNat) (hquorum : quorum claimed.len ≤ claimed.count) :
    (challenge seed claimed (sampleSize claimed.len)).ones.length =
      if claimed.len.toNat = 1 then 1 else sampleSize claimed.len := by
  rw [length_ones_challenge]
  have hcount := claimed.count_le
  by_cases hone : claimed.len.toNat = 1
  · rw [if_pos hone]
    unfold quorum at hquorum
    unfold sampleSize
    omega
  · have hle := sampleSize_le_quorum (show 2 ≤ claimed.len.toNat by omega)
    rw [if_neg hone]
    omega

-- The sample of a claim with a quorum is more than a third of the set.
theorem Bitfield.third_lt_length_ones_challenge {claimed : Bitfield} (seed : Hash)
    (hquorum : quorum claimed.len ≤ claimed.count) :
    (claimed.len.toNat - 1) / 3 < (challenge seed claimed (sampleSize claimed.len)).ones.length := by
  have hpos := one_le_len_of_quorum hquorum
  rw [length_ones_challenge_of_quorum seed hpos hquorum]
  by_cases hone : claimed.len.toNat = 1
  · rw [if_pos hone]
    omega
  · rw [if_neg hone]
    unfold sampleSize
    omega

end FinalityBridge
