import Mathlib.Data.Nat.Bitwise
import FinalityBridge.Proofs.Mmr.Inclusion

/-!
# Mountains tile the leaves

The mountains over a number of leaves lie side by side from the first leaf to the last, the highest
first (`Mountain.adjoin_all`). In machine words they come out the same for every number of leaves that a
word can hold, no sum being cut on the way (`MountainWord.map_toMountain_all`), and so does the check of
a proof, which never looks for a mountain or a peak that is not there (`InclusionProof.verifyWord?_eq`).
Main statement: `tiles_leaves`.
-/

namespace FinalityBridge

open Merkle

namespace Mountain

/-! ## Side by side -/

/-- The indices of the leaves of a mountain. -/
def indices (m : Mountain) : List Nat := List.range' m.start m.size

/-- Mountains that lie side by side: each begins where the one before it ends. -/
inductive Adjoin : (start : Nat) → List Mountain → (stop : Nat) → Prop
  | nil (stop : Nat) : Adjoin stop [] stop
  | cons {m : Mountain} {rest : List Mountain} {stop : Nat}
    (hrest : Adjoin (m.start + m.size) rest stop) : Adjoin m.start (m :: rest) stop

namespace Adjoin

variable {start stop : Nat} {mountains : List Mountain}

theorem start_le_stop (h : Adjoin start mountains stop) : start ≤ stop := by
  induction h with
  | nil => exact Nat.le_refl _
  | cons hrest ih => exact Nat.le_of_add_right_le ih

theorem start_le (h : Adjoin start mountains stop) {m : Mountain} (hm : m ∈ mountains) :
    start ≤ m.start := by
  induction h with
  | nil => cases hm
  | cons hrest ih =>
    rcases List.mem_cons.1 hm with rfl | hm
    · exact Nat.le_refl _
    · exact Nat.le_of_add_right_le (ih hm)

-- A mountain ends before all those that come after it.
theorem pairwise (h : Adjoin start mountains stop) :
    mountains.Pairwise fun l r => l.start + l.size ≤ r.start := by
  induction h with
  | nil => exact .nil
  | cons hrest ih => exact .cons (fun _ hr => hrest.start_le hr) ih

theorem flatMap_indices (h : Adjoin start mountains stop) :
    mountains.flatMap indices = List.range' start (stop - start) := by
  induction h with
  | nil => rw [Nat.sub_self]; rfl
  | @cons m rest stop hrest ih =>
    have hle := hrest.start_le_stop
    rw [List.flatMap_cons, ih, indices, List.range'_append_1]
    congr 1
    omega

end Adjoin

theorem adjoin_below (leafCount start height : Nat) :
    Adjoin start (below leafCount start height) (start + leafCount % 2 ^ height) := by
  induction height generalizing start with
  | zero =>
    rw [below, Nat.pow_zero, Nat.mod_one]
    exact .nil start
  | succ height ih =>
    rw [below, mod_two_pow_succ, Nat.one_shiftLeft]
    by_cases hbit : leafCount.testBit height
    · rw [if_pos hbit, if_pos hbit, ← Nat.add_assoc]
      refine .cons (m := ⟨start, height⟩) ?_
      rw [size_eq]
      exact ih (start + 2 ^ height)
    · rw [if_neg hbit, if_neg hbit, Nat.zero_add]
      exact ih start

theorem adjoin_all (leafCount : Nat) : Adjoin 0 (all leafCount) leafCount := by
  have h := adjoin_below leafCount 0 (leafCount.log2 + 1)
  rwa [mod_two_pow_bits, Nat.zero_add] at h

-- A mountain begins after mountains that are all higher than it is.
theorem two_pow_dvd_start_of_mem_below {leafCount start height : Nat} (hdvd : 2 ^ height ∣ start)
    {m : Mountain} (hm : m ∈ below leafCount start height) : 2 ^ (m.height + 1) ∣ m.start := by
  induction height generalizing start with
  | zero => cases hm
  | succ height ih =>
    have hdvd' : 2 ^ height ∣ start := Nat.dvd_trans (Nat.pow_dvd_pow 2 (Nat.le_succ height)) hdvd
    rw [below, Nat.one_shiftLeft] at hm
    by_cases hbit : leafCount.testBit height
    · rw [if_pos hbit, List.mem_cons] at hm
      rcases hm with rfl | hm
      · exact hdvd
      · exact ih (Nat.dvd_add hdvd' (Nat.dvd_refl _)) hm
    · rw [if_neg hbit] at hm
      exact ih hdvd' hm

end Mountain

/-! ## Numbers in machine words -/

/-- The place of a mountain in machine words. -/
structure MountainWord where
  start : UInt64
  height : UInt32
deriving DecidableEq

namespace MountainWord

variable {m : MountainWord} {leafCount leafIndex start : UInt64}

def size (m : MountainWord) : UInt64 := 1 <<< m.height.toUInt64

def toMountain (m : MountainWord) : Mountain := ⟨m.start.toNat, m.height.toNat⟩

@[simp] theorem toMountain_start (m : MountainWord) : m.toMountain.start = m.start.toNat := rfl

@[simp] theorem toMountain_height (m : MountainWord) : m.toMountain.height = m.height.toNat := rfl

/-- The mountains of height below `height`, from `start` on, which is moved on by the size of each. -/
def below (leafCount start : UInt64) : (height : Nat) → List MountainWord
  | 0 => []
  | height + 1 =>
    let m : MountainWord := ⟨start, .ofNat height⟩
    if leafCount &&& m.size ≠ 0 then m :: below leafCount (start + m.size) height
    else below leafCount start height

/-- The mountains over a number of leaves, one for each bit of the word that is set. -/
def all (leafCount : UInt64) : List MountainWord := below leafCount 0 64

theorem toNat_size {height : Nat} (h : m.height.toNat = height) (hlt : height < 64) :
    m.size.toNat = 2 ^ height := by
  have hfits : 2 ^ height < 2 ^ 64 := Nat.pow_lt_pow_right (by decide) hlt
  rw [size, UInt64.toNat_shiftLeft, UInt32.toNat_toUInt64, h, Nat.mod_eq_of_lt hlt,
    UInt64.toNat_one, Nat.one_shiftLeft, Nat.mod_eq_of_lt hfits]

theorem and_size_ne_zero_iff {height : Nat} (h : m.height.toNat = height) (hlt : height < 64) :
    leafCount &&& m.size ≠ 0 ↔ leafCount.toNat.testBit height = true := by
  rw [Ne, ← UInt64.toNat_inj, UInt64.toNat_and, toNat_size h hlt, Nat.and_two_pow]
  cases leafCount.toNat.testBit height <;> simp

/-- As long as the leaves that are left fit into a word, no sum is cut. -/
theorem map_toMountain_below {height : Nat} (hheight : height ≤ 64)
    (hfits : start.toNat + leafCount.toNat % 2 ^ height < 2 ^ 64) :
    (below leafCount start height).map toMountain =
      Mountain.below leafCount.toNat start.toNat height := by
  induction height generalizing start with
  | zero => rfl
  | succ height ih =>
    have hword : (UInt32.ofNat height).toNat = height :=
      UInt32.toNat_ofNat_of_lt' (Nat.lt_of_lt_of_le hheight (by decide))
    have hset : leafCount &&& size ⟨start, .ofNat height⟩ ≠ 0 ↔
        leafCount.toNat.testBit height = true := and_size_ne_zero_iff hword hheight
    rw [Mountain.mod_two_pow_succ] at hfits
    rw [below, Mountain.below, Nat.one_shiftLeft]
    by_cases hbit : leafCount.toNat.testBit height
    · rw [if_pos hbit] at hfits
      have hsum : (start + size ⟨start, .ofNat height⟩).toNat = start.toNat + 2 ^ height := by
        rw [UInt64.toNat_add, toNat_size hword hheight]
        exact Nat.mod_eq_of_lt (by omega)
      rw [if_pos (hset.2 hbit), if_pos hbit, List.map_cons, ih (by omega) (by rw [hsum]; omega),
        hsum, toMountain, hword]
    · rw [if_neg hbit] at hfits
      rw [if_neg (mt hset.1 hbit), if_neg hbit]
      exact ih (by omega) (by omega)

/-- The words hold the mountains over the leaves. -/
theorem map_toMountain_all (leafCount : UInt64) :
    (all leafCount).map toMountain = Mountain.all leafCount.toNat := by
  have hlt := leafCount.toNat_lt
  have hmod : leafCount.toNat % 2 ^ 64 = leafCount.toNat := Nat.mod_eq_of_lt hlt
  have h := @map_toMountain_below leafCount 0 64 (Nat.le_refl 64)
    (by rw [hmod, UInt64.toNat_zero, Nat.zero_add]; exact hlt)
  rwa [UInt64.toNat_zero, Mountain.below_eq_all hlt] at h

theorem toMountain_mem_all (h : m ∈ all leafCount) : m.toMountain ∈ Mountain.all leafCount.toNat := by
  rw [← map_toMountain_all]
  exact List.mem_map_of_mem h

-- No mountain reaches beyond the leaves, so neither its size nor its end is cut.
theorem toNat_size_of_mem (h : m ∈ all leafCount) : m.size.toNat = m.toMountain.size := by
  have hend := Mountain.end_le (toMountain_mem_all h)
  have hlt := leafCount.toNat_lt
  rw [Mountain.size_eq, toMountain_height] at hend ⊢
  apply toNat_size rfl
  apply (Nat.pow_lt_pow_iff_right (show 1 < 2 by decide)).1
  exact Nat.lt_of_le_of_lt (Nat.le_of_add_left_le hend) hlt

theorem toNat_end_of_mem (h : m ∈ all leafCount) :
    m.start.toNat + m.size.toNat ≤ leafCount.toNat ∧
      (m.start + m.size).toNat = m.start.toNat + m.size.toNat := by
  have hend : m.start.toNat + m.size.toNat ≤ leafCount.toNat := by
    rw [toNat_size_of_mem h]
    exact Mountain.end_le (toMountain_mem_all h)
  refine ⟨hend, ?_⟩
  rw [UInt64.toNat_add]
  exact Nat.mod_eq_of_lt (Nat.lt_of_le_of_lt hend leafCount.toNat_lt)

theorem lt_end_iff (h : m ∈ all leafCount) :
    leafIndex < m.start + m.size ↔ leafIndex.toNat < m.toMountain.start + m.toMountain.size := by
  rw [UInt64.lt_iff_toNat_lt, (toNat_end_of_mem h).2, toNat_size_of_mem h, toMountain_start]

-- Words tell as well which leaves a mountain covers.
theorem covers_iff (h : m ∈ all leafCount) :
    m.start ≤ leafIndex ∧ leafIndex < m.start + m.size ↔ m.toMountain.Covers leafIndex.toNat := by
  rw [lt_end_iff h, UInt64.le_iff_toNat_le, Mountain.Covers, toMountain_start]

/-! ## The mountain of a leaf -/

/-- Where the leaf at an index stands: in `m`, the `i`-th of the mountains. -/
structure Holds (leafCount leafIndex : UInt64) (i : Nat) (m : MountainWord) : Prop where
  getElem?_eq : (all leafCount)[i]? = some m
  -- It is the first mountain that ends after the leaf.
  findIdx?_eq : ((all leafCount).findIdx? fun o => decide (leafIndex < o.start + o.size)) = some i
  covers : m.toMountain.Covers leafIndex.toNat
  eq_of_covers : ∀ o ∈ all leafCount, o.toMountain.Covers leafIndex.toNat → o = m

theorem exists_split (h : leafIndex < leafCount) :
    ∃ left m right, all leafCount = left ++ m :: right ∧ m.toMountain.Covers leafIndex.toNat ∧
      (∀ l ∈ left.map toMountain, l.start + l.size ≤ leafIndex.toNat) ∧
      (∀ r ∈ right.map toMountain, leafIndex.toNat < r.start) := by
  obtain ⟨left, m, right, hsplit, hcovers, hleft, hright⟩ :=
    Mountain.exists_split (UInt64.lt_iff_toNat_lt.1 h)
  rw [← map_toMountain_all, List.map_eq_append_iff] at hsplit
  obtain ⟨left, others, hsplit, rfl, hothers⟩ := hsplit
  rw [List.map_eq_cons_iff] at hothers
  obtain ⟨m, right, rfl, rfl, rfl⟩ := hothers
  exact ⟨left, m, right, hsplit, hcovers, hleft, hright⟩

section Split

variable {left right : List MountainWord} (hsplit : all leafCount = left ++ m :: right)
include hsplit

theorem all_toNat_of_split : Mountain.all leafCount.toNat =
    left.map toMountain ++ m.toMountain :: right.map toMountain := by
  rw [← map_toMountain_all, hsplit, List.map_append, List.map_cons]

theorem holds_of_split (hcovers : m.toMountain.Covers leafIndex.toNat)
    (hleft : ∀ l ∈ left.map toMountain, l.start + l.size ≤ leafIndex.toNat)
    (hright : ∀ r ∈ right.map toMountain, leafIndex.toNat < r.start) :
    Holds leafCount leafIndex left.length m := by
  have hmem : ∀ o, o ∈ left ∨ o = m ∨ o ∈ right ↔ o ∈ all leafCount := by
    intro o
    rw [hsplit]
    simp
  constructor
  case getElem?_eq =>
    rw [hsplit]
    simp
  case findIdx?_eq =>
    rw [hsplit]
    refine Mountain.findIdx?_append_cons ?_ ?_ right
    · intro l hl
      rw [lt_end_iff ((hmem l).1 (.inl hl))]
      exact Nat.not_lt.2 (hleft _ (List.mem_map_of_mem hl))
    · exact (lt_end_iff ((hmem m).1 (.inr (.inl rfl)))).2 hcovers.2
  case covers => exact hcovers
  case eq_of_covers =>
    intro o ho hcovers'
    rcases (hmem o).2 ho with hl | rfl | hr
    · exact absurd hcovers'.2 (Nat.not_lt.2 (hleft _ (List.mem_map_of_mem hl)))
    · rfl
    · exact absurd hcovers'.1 (Nat.not_le.2 (hright _ (List.mem_map_of_mem hr)))

end Split

/-- The position of a leaf in its mountain is not cut. -/
theorem Holds.toNat_sub {i : Nat} (h : Holds leafCount leafIndex i m) :
    m.start ≤ leafIndex ∧ (leafIndex - m.start).toNat = leafIndex.toNat - m.start.toNat ∧
      (leafIndex - m.start).toNat < 2 ^ m.height.toNat := by
  obtain ⟨hstart, hend⟩ := h.covers
  have hle : m.start ≤ leafIndex := UInt64.le_iff_toNat_le.2 hstart
  have hsub := UInt64.toNat_sub_of_le _ _ hle
  rw [Mountain.size_eq] at hend
  refine ⟨hle, hsub, ?_⟩
  rw [hsub]
  exact Nat.sub_lt_left_of_lt_add hstart hend

/-! ## The check of a proof -/

section Walk

variable {Node : Type}

/-- The peak above a leaf at `position` of its mountain, given the siblings on the way, with the
position that is left at the peak. -/
def ascend (join : Node → Node → Node) (position : UInt64) (node : Node) :
    List Node → Node × UInt64
  | [] => (node, position)
  | sibling :: siblings =>
    ascend join (position / 2)
      (if position % 2 = 0 then join node sibling else join sibling node) siblings

theorem ascend_spec (join : Node → Node → Node) (position : UInt64) (node : Node)
    (siblings : List Node) :
    (ascend join position node siblings).1 = Mountain.ascend join position.toNat node siblings ∧
      (ascend join position node siblings).2.toNat = position.toNat / 2 ^ siblings.length := by
  induction siblings generalizing position node with
  | nil => exact ⟨rfl, (Nat.div_one _).symm⟩
  | cons sibling siblings ih =>
    have hhalf : (position / 2).toNat = position.toNat / 2 := UInt64.toNat_div position 2
    obtain ⟨hpeak, hposition⟩ := ih (position / 2)
      (if position % 2 = 0 then join node sibling else join sibling node)
    rw [hhalf] at hpeak hposition
    constructor
    · rw [ascend, hpeak, Mountain.ascend, Layer.joinAt_toNat]
    · rw [ascend, hposition, Nat.div_div_eq_div_mul, List.length_cons, Nat.pow_succ']

-- A leaf comes to the peak of its mountain, where there is one position only.
theorem Holds.ascend_position {i : Nat} (h : Holds leafCount leafIndex i m)
    (join : Node → Node → Node) (node : Node) {siblings : List Node}
    (hlength : siblings.length = m.height.toNat) :
    (ascend join (leafIndex - m.start) node siblings).2 = 0 := by
  apply UInt64.toNat_inj.1
  rw [(ascend_spec join _ node siblings).2, hlength]
  exact Nat.div_eq_of_lt h.toNat_sub.2.2

/-- A row of peaks from the `i`-th on, `count` of them: the one at `own` is given and the others are
taken one after the other. There is none if they run out. -/
def row? (own : Nat) (peak : Node) : (i count : Nat) → (others : List Node) → Option (List Node)
  | _, 0, _ => some []
  | i, count + 1, others =>
    if i = own then (row? own peak (i + 1) count others).map (peak :: ·)
    else
      match others with
      | [] => none
      | other :: others => (row? own peak (i + 1) count others).map (other :: ·)

theorem row?_of_lt {own i : Nat} (h : own < i) (peak : Node) (others : List Node) :
    row? own peak i others.length others = some others := by
  induction others generalizing i with
  | nil => rfl
  | cons other others ih =>
    rw [List.length_cons, row?, if_neg (Nat.ne_of_gt h), ih (Nat.lt_succ_of_lt h)]
    rfl

/-- With as many others as there are places for them, none is missing. -/
theorem row?_append (i : Nat) (before after : List Node) (peak : Node) :
    row? (i + before.length) peak i (before ++ peak :: after).length (before ++ after) =
      some (before ++ peak :: after) := by
  induction before generalizing i with
  | nil =>
    rw [List.nil_append, List.nil_append, List.length_cons, List.length_nil, Nat.add_zero, row?.eq_def]
    dsimp only
    rw [if_pos rfl, row?_of_lt (Nat.lt_succ_self i)]
    rfl
  | cons first before ih =>
    have hown : i + (first :: before).length = i + 1 + before.length := by
      rw [List.length_cons]
      omega
    rw [hown, List.cons_append, List.length_cons, List.cons_append, row?, if_neg (by omega), ih]
    rfl

theorem row?_of_split {left right : List MountainWord} {before after : List Node}
    (hsplit : all leafCount = left ++ m :: right) (hbefore : before.length = left.length)
    (hafter : after.length = right.length) (peak : Node) :
    row? left.length peak 0 (all leafCount).length (before ++ after) =
      some (before ++ peak :: after) := by
  have hlength : (before ++ peak :: after).length = (all leafCount).length := by
    rw [hsplit, List.length_append, List.length_append, hbefore, List.length_cons, hafter,
      List.length_cons]
  have hrow := row?_append 0 before after peak
  rwa [Nat.zero_add, hbefore, hlength] at hrow

end Walk

end MountainWord

/-- The check of a proof in machine words. It has no answer if it looks for a mountain or for a peak that
is not there. -/
def InclusionProof.verifyWord? (hash : Hasher) (proof : InclusionProof) (leaf root : Hash) :
    Option Bool :=
  let mountains := MountainWord.all proof.leafCount
  if proof.leafCount ≤ proof.leafIndex then some false
  else do
    let i ← mountains.findIdx? fun m => proof.leafIndex < m.start + m.size
    let m ← mountains[i]?
    if proof.items.length = m.height.toNat + mountains.length - 1 then
      let (peak, _) := MountainWord.ascend (join hash) (proof.leafIndex - m.start) leaf
        (proof.items.take m.height.toNat)
      let peaks ← MountainWord.row? i peak 0 mountains.length (proof.items.drop m.height.toNat)
      return Mountain.bag? (join hash) peaks == some root
    else return false

open MountainWord

/-- Whatever a proof claims, it is checked in words as in exact numbers, and all that the check looks
for is there. -/
theorem InclusionProof.verifyWord?_eq (hash : Hasher) (proof : InclusionProof) (leaf root : Hash) :
    proof.verifyWord? hash leaf root = some (proof.verify hash leaf root) := by
  unfold InclusionProof.verifyWord? InclusionProof.verify InclusionProof.rootFrom?
  by_cases hrange : proof.leafCount ≤ proof.leafIndex
  · rw [if_pos hrange, Mountain.climb?, if_pos (UInt64.le_iff_toNat_le.1 hrange)]
    rfl
  obtain ⟨left, m, right, hsplit, hcovers, hleft, hright⟩ := exists_split (UInt64.not_le.1 hrange)
  have hholds := holds_of_split hsplit hcovers hleft hright
  have hexact := all_toNat_of_split hsplit
  have hcount : m.height.toNat + (all proof.leafCount).length - 1 =
      m.height.toNat + (left.length + right.length) := by
    rw [hsplit, List.length_append, List.length_cons]
    omega
  simp only [if_neg hrange, hholds.findIdx?_eq, hholds.getElem?_eq, Option.bind_eq_bind,
    Option.bind_some, hcount]
  by_cases hlength : proof.items.length = m.height.toNat + (left.length + right.length)
  · obtain ⟨siblings, others, hitems, hsiblings, hothers⟩ :=
      Mountain.exists_append_of_length hlength
    obtain ⟨before, after, rfl, hbefore, hafter⟩ := Mountain.exists_append_of_length hothers
    have hclimb := @Mountain.climb?_append _ (join hash) _ _ leaf siblings before after _ _ _ hexact
      hcovers hleft hsiblings (by rwa [List.length_map]) (by rwa [List.length_map])
    rw [if_pos hlength, hitems, List.take_left' hsiblings, List.drop_left' hsiblings,
      row?_of_split hsplit hbefore hafter, (ascend_spec (join hash) _ leaf siblings).1,
      hholds.toNat_sub.2.1, hclimb]
    rfl
  · rw [if_neg hlength, Mountain.climb?_eq_none hexact hcovers hleft
      (by rwa [List.length_map, List.length_map])]
    rfl

/-- How the mountains over a number of leaves lie, and how they are found in machine words. -/
structure TilesLeaves (leafCount : UInt64) : Prop where
  -- The words hold the exact mountains,
  map_toMountain : (all leafCount).map toMountain = Mountain.all leafCount.toNat
  -- whose heights fall and are the bits that are set.
  descending : ((Mountain.all leafCount.toNat).map Mountain.height).Pairwise (· > ·)
  mem_heights : ∀ k, k ∈ (Mountain.all leafCount.toNat).map Mountain.height ↔
    leafCount.toNat.testBit k = true
  -- From zero on, each begins where the one before it ends. No two have a leaf in common, and in this
  -- order they have all the leaves and no others.
  adjoin : Mountain.Adjoin 0 (Mountain.all leafCount.toNat) leafCount.toNat
  disjoint : (Mountain.all leafCount.toNat).Pairwise fun l r =>
    ∀ index, l.Covers index → ¬r.Covers index
  flatMap_indices : (Mountain.all leafCount.toNat).flatMap Mountain.indices =
    List.range leafCount.toNat
  aligned : ∀ m ∈ Mountain.all leafCount.toNat, 2 ^ (m.height + 1) ∣ m.start
  -- Neither the size of a mountain nor the sum with its start is cut,
  toNat_size : ∀ m ∈ all leafCount, m.size.toNat = 2 ^ m.height.toNat
  sum_lt : ∀ m ∈ all leafCount, m.start.toNat + m.size.toNat < 2 ^ 64
  -- so that words tell which leaves are in a mountain.
  covers_iff : ∀ m ∈ all leafCount, ∀ leafIndex : UInt64,
    m.start ≤ leafIndex ∧ leafIndex < m.start + m.size ↔ m.toMountain.Covers leafIndex.toNat
  -- Every leaf is in one mountain, the first one that ends after it. Its position there is not cut, is
  -- within the mountain, and is zero once it is at the peak.
  exists_holds : ∀ leafIndex < leafCount, ∃ i m, Holds leafCount leafIndex i m
  toNat_sub : ∀ leafIndex i m, Holds leafCount leafIndex i m →
    m.start ≤ leafIndex ∧ (leafIndex - m.start).toNat = leafIndex.toNat - m.start.toNat ∧
      (leafIndex - m.start).toNat < 2 ^ m.height.toNat
  ascend_position : ∀ leafIndex i m, Holds leafCount leafIndex i m →
    ∀ (join : Hash → Hash → Hash) (node : Hash) (siblings : List Hash),
      siblings.length = m.height.toNat → (ascend join (leafIndex - m.start) node siblings).2 = 0
  -- The check of a proof finds all that it looks for, whatever else the proof claims.
  verifyWord?_eq : ∀ (hash : Hasher) (proof : InclusionProof) (leaf root : Hash),
    proof.leafCount = leafCount →
      proof.verifyWord? hash leaf root = some (proof.verify hash leaf root)

/-- For every number of leaves that a word holds, the mountains tile the leaves, and no number is cut
where a leaf is found among them or a proof is checked. -/
theorem tiles_leaves (leafCount : UInt64) : TilesLeaves leafCount where
  map_toMountain := map_toMountain_all leafCount
  descending := Mountain.heights_below_descending _ _ _
  mem_heights := fun _ => Mountain.mem_heights_all
  adjoin := Mountain.adjoin_all _
  disjoint := (Mountain.adjoin_all _).pairwise.imp fun hle _ hl hr =>
    Nat.not_lt.2 (Nat.le_trans hle hr.1) hl.2
  flatMap_indices := by
    rw [(Mountain.adjoin_all _).flatMap_indices, Nat.sub_zero, List.range_eq_range']
  aligned := fun _ hm => Mountain.two_pow_dvd_start_of_mem_below (Nat.dvd_zero _) hm
  toNat_size := fun m hm => (toNat_size_of_mem hm).trans (Mountain.size_eq m.toMountain)
  sum_lt := fun m hm => Nat.lt_of_le_of_lt (toNat_end_of_mem hm).1 leafCount.toNat_lt
  covers_iff := fun _ hm _ => MountainWord.covers_iff hm
  exists_holds := by
    intro leafIndex hindex
    obtain ⟨left, m, right, hsplit, hcovers, hleft, hright⟩ := exists_split hindex
    exact ⟨left.length, m, holds_of_split hsplit hcovers hleft hright⟩
  toNat_sub := fun _ _ _ hholds => hholds.toNat_sub
  ascend_position := fun _ _ _ hholds join node _ hlength => hholds.ascend_position join node hlength
  verifyWord?_eq := fun hash proof leaf root _ => proof.verifyWord?_eq hash leaf root

-- Over as many leaves as a word can count, the last mountain is a single leaf.
example : (all 0xffffffffffffffff).getLast? = some ⟨0xfffffffffffffffe, 0⟩ := by decide +kernel

end FinalityBridge
