import Mathlib.Algebra.Ring.Nat
import Mathlib.Data.List.InsertIdx
import Mathlib.Logic.Function.Iterate
import FinalityBridge.Mmr.Mountain
import FinalityBridge.Proofs.Merkle.Layer

/-!
# Laws of mountains

The mountains over a number of leaves lie side by side, and every leaf below that number belongs to
exactly one of them (`exists_split`). Their heights are the bits of the number (`mem_heights_all`), and
leaves that fill a mountain below all others add just this one (`all_add`). In a mountain, the
siblings of a leaf lead to the peak (`ascend_path`); with the other peaks they lead to the node over
the whole range (`climb?_path`). Whatever is read on the way is there (`readable`), and any walk takes
its items apart by the mountains of its shape (`climb?_eq_some_iff`).
-/

namespace FinalityBridge.Mountain

open Merkle

variable {Node Other : Type} {join : Node → Node → Node} {join' : Other → Other → Other}

/-! ## Where the mountains lie -/

theorem size_eq (m : Mountain) : m.size = 2 ^ m.height := Nat.one_shiftLeft m.height

theorem mod_two_pow_succ (n height : Nat) :
    n % 2 ^ (height + 1) = (if n.testBit height then 2 ^ height else 0) + n % 2 ^ height := by
  rw [Nat.mod_pow_succ, Nat.testBit_eq_decide_div_mod_eq]
  by_cases hbit : n / 2 ^ height % 2 = 1
  · simp [hbit, Nat.add_comm]
  · have hzero : n / 2 ^ height % 2 = 0 := by omega
    simp [hzero]

theorem within_below {leafCount start height : Nat} {m : Mountain}
    (h : m ∈ below leafCount start height) :
    start ≤ m.start ∧ m.start + m.size ≤ start + leafCount % 2 ^ height := by
  induction height generalizing start with
  | zero => cases h
  | succ height ih =>
    rw [below, Nat.one_shiftLeft] at h
    rw [mod_two_pow_succ]
    by_cases hbit : leafCount.testBit height
    · rw [if_pos hbit, List.mem_cons] at h
      rw [if_pos hbit]
      rcases h with rfl | h
      · have hsize := size_eq ⟨start, height⟩
        dsimp only at hsize ⊢
        omega
      · have hm := ih h
        omega
    · rw [if_neg hbit] at h
      rw [if_neg hbit]
      have hm := ih h
      omega

-- Every leaf in the stretch of the mountains belongs to one of them; those before it end at or
-- before the leaf, and those after it begin after the leaf.
theorem exists_split_below {leafCount start height index : Nat} (hstart : start ≤ index)
    (hindex : index < start + leafCount % 2 ^ height) :
    ∃ left m right, below leafCount start height = left ++ m :: right ∧ m.Covers index ∧
      (∀ l ∈ left, l.start + l.size ≤ index) ∧ (∀ r ∈ right, index < r.start) := by
  induction height generalizing start with
  | zero => omega
  | succ height ih =>
    rw [mod_two_pow_succ] at hindex
    rw [below, Nat.one_shiftLeft]
    by_cases hbit : leafCount.testBit height
    · rw [if_pos hbit] at hindex ⊢
      by_cases hfirst : index < start + 2 ^ height
      · have hend : index < start + (Mountain.mk start height).size := by
          rwa [size_eq]
        refine ⟨[], ⟨start, height⟩, _, rfl, ⟨hstart, hend⟩, by simp, ?_⟩
        intro r hr
        have hbounds := within_below hr
        omega
      · rcases ih (show start + 2 ^ height ≤ index by omega) (by omega) with
            ⟨left, m, right, hsplit, hcovers, hleft, hright⟩
        refine ⟨⟨start, height⟩ :: left, m, right, by rw [hsplit]; rfl, hcovers, ?_, hright⟩
        intro l hl
        rcases List.mem_cons.1 hl with rfl | hl
        · have hsize := size_eq ⟨start, height⟩
          dsimp only at hsize ⊢
          omega
        · exact hleft l hl
    · rw [if_neg hbit] at hindex ⊢
      exact ih hstart (by omega)

theorem mod_two_pow_bits (leafCount : Nat) : leafCount % 2 ^ (leafCount.log2 + 1) = leafCount :=
  Nat.mod_eq_of_lt Nat.lt_log2_self

-- No mountain reaches beyond the leaves.
theorem end_le {leafCount : Nat} {m : Mountain} (h : m ∈ all leafCount) :
    m.start + m.size ≤ leafCount := by
  have hbounds := within_below h
  rw [mod_two_pow_bits] at hbounds
  omega

-- There are no more mountains than bits.
theorem length_below_le (leafCount start height : Nat) :
    (below leafCount start height).length ≤ height := by
  induction height generalizing start with
  | zero => exact Nat.le_refl 0
  | succ height ih =>
    rw [below]
    split
    · exact Nat.succ_le_succ (ih _)
    · exact Nat.le_succ_of_le (ih _)

theorem below_eq_nil {leafCount start height : Nat}
    (h : ∀ k < height, leafCount.testBit k = false) : below leafCount start height = [] := by
  induction height with
  | zero => rfl
  | succ height ih =>
    rw [below, if_neg (by rw [h height (Nat.lt_succ_self height)]; exact Bool.false_ne_true)]
    exact ih fun k hk => h k (Nat.lt_succ_of_lt hk)

-- A power of two makes a single mountain.
theorem all_two_pow (height : Nat) : all (2 ^ height) = [⟨0, height⟩] := by
  rw [all, Nat.log2_two_pow, below, if_pos Nat.testBit_two_pow_self, below_eq_nil]
  intro k hk
  exact Nat.testBit_two_pow_of_ne (Nat.ne_of_gt hk)

theorem covers_of_lt_two_pow {height index : Nat} (h : index < 2 ^ height) :
    (Mountain.mk 0 height).Covers index := by
  refine ⟨Nat.zero_le index, ?_⟩
  rwa [size_eq, Nat.zero_add]

-- A mountain is no higher than the leaves allow.
theorem height_le {leafCount : Nat} {m : Mountain} (h : m ∈ all leafCount) :
    m.height ≤ leafCount.log2 := by
  have hend := end_le h
  have hpos := Nat.two_pow_pos m.height
  rw [size_eq] at hend
  exact (Nat.le_log2 (by omega)).2 (by omega)

theorem exists_split {leafCount index : Nat} (h : index < leafCount) :
    ∃ left m right, all leafCount = left ++ m :: right ∧ m.Covers index ∧
      (∀ l ∈ left, l.start + l.size ≤ index) ∧ (∀ r ∈ right, index < r.start) := by
  apply exists_split_below (Nat.zero_le index)
  rwa [mod_two_pow_bits, Nat.zero_add]

theorem mem_of_split {leafCount : Nat} {left right : List Mountain} {m : Mountain}
    (hsplit : all leafCount = left ++ m :: right) : m ∈ all leafCount := by
  rw [hsplit]
  exact List.mem_append_right _ List.mem_cons_self

/-! ## Heights and bits -/

-- The heights are the set bits, the highest first.
theorem mem_heights_below {leafCount start height k : Nat} :
    k ∈ (below leafCount start height).map Mountain.height ↔
      k < height ∧ leafCount.testBit k = true := by
  induction height generalizing start with
  | zero => simp [below]
  | succ height ih =>
    rw [below]
    by_cases hbit : leafCount.testBit height
    · rw [if_pos hbit, List.map_cons, List.mem_cons, ih]
      constructor
      · rintro (rfl | ⟨hlt, hk⟩)
        · exact ⟨Nat.lt_succ_self k, hbit⟩
        · exact ⟨Nat.lt_succ_of_lt hlt, hk⟩
      · rintro ⟨hlt, hk⟩
        rcases Nat.lt_succ_iff_lt_or_eq.1 hlt with hlt | rfl
        · exact .inr ⟨hlt, hk⟩
        · exact .inl rfl
    · rw [if_neg hbit, ih]
      constructor
      · rintro ⟨hlt, hk⟩
        exact ⟨Nat.lt_succ_of_lt hlt, hk⟩
      · rintro ⟨hlt, hk⟩
        rcases Nat.lt_succ_iff_lt_or_eq.1 hlt with hlt | rfl
        · exact ⟨hlt, hk⟩
        · exact absurd hk hbit

theorem heights_below_descending (leafCount start height : Nat) :
    ((below leafCount start height).map Mountain.height).Pairwise (· > ·) := by
  induction height generalizing start with
  | zero => exact .nil
  | succ height ih =>
    rw [below]
    split
    · rw [List.map_cons, List.pairwise_cons]
      exact ⟨fun k hk => (mem_heights_below.1 hk).1, ih _⟩
    · exact ih _

theorem mem_heights_all {leafCount k : Nat} :
    k ∈ (all leafCount).map Mountain.height ↔ leafCount.testBit k = true := by
  rw [all, mem_heights_below]
  constructor
  · exact And.right
  · intro hk
    refine ⟨?_, hk⟩
    apply Nat.lt_of_not_le
    intro hle
    have hlt : leafCount < 2 ^ k :=
      Nat.lt_of_lt_of_le Nat.lt_log2_self (Nat.pow_le_pow_right (by decide) hle)
    rw [Nat.testBit_lt_two_pow hlt] at hk
    cases hk

-- Bits beyond the number of leaves make no mountains.
theorem below_eq_below {leafCount k height : Nat} (hlt : leafCount < 2 ^ k) (hle : k ≤ height)
    (start : Nat) : below leafCount start height = below leafCount start k := by
  induction hle with
  | refl => rfl
  | @step height hle ih =>
    have hbit : leafCount.testBit height = false :=
      Nat.testBit_lt_two_pow (Nat.lt_of_lt_of_le hlt (Nat.pow_le_pow_right (by decide) hle))
    rw [below, hbit]
    exact ih

theorem below_eq_all {leafCount height : Nat} (h : leafCount < 2 ^ height) :
    below leafCount 0 height = all leafCount := by
  rcases Nat.le_total height (leafCount.log2 + 1) with hle | hle
  · exact (below_eq_below h hle 0).symm
  · exact below_eq_below Nat.lt_log2_self hle 0

-- Leaves that fill a mountain below all others add just this one.
theorem below_add (q : Nat) {start height k : Nat} (hk : k < height) :
    below (2 ^ (k + 1) * q + 2 ^ k) start height =
      below (2 ^ (k + 1) * q) start height ++ [⟨start + 2 ^ (k + 1) * q % 2 ^ height, k⟩] := by
  have hlt : 2 ^ k < 2 ^ (k + 1) := Nat.pow_lt_pow_right (by decide) (Nat.lt_succ_self k)
  -- From bit `k + 1` on both numbers have the bits of `q`; below it, one has bit `k` and the other none.
  have hlow : ∀ j < k + 1, (2 ^ (k + 1) * q + 2 ^ k).testBit j = (2 ^ k).testBit j := by
    intro j hj
    rw [Nat.testBit_two_pow_mul_add q hlt, if_pos hj]
  have hlow' : ∀ j < k + 1, (2 ^ (k + 1) * q).testBit j = false := by
    intro j hj
    rw [Nat.testBit_two_pow_mul, decide_eq_false (Nat.not_le.2 hj), Bool.false_and]
  have hhigh : ∀ j, k < j → (2 ^ (k + 1) * q + 2 ^ k).testBit j = (2 ^ (k + 1) * q).testBit j := by
    intro j hj
    rw [Nat.testBit_two_pow_mul_add q hlt, if_neg (Nat.not_lt.2 hj), Nat.testBit_two_pow_mul,
      decide_eq_true (show j ≥ k + 1 from hj), Bool.true_and]
  induction height generalizing start with
  | zero => exact absurd hk (Nat.not_lt_zero k)
  | succ height ih =>
    rcases Nat.lt_succ_iff_lt_or_eq.1 hk with hk | rfl
    · rw [below, below, hhigh height hk, mod_two_pow_succ]
      by_cases hbit : (2 ^ (k + 1) * q).testBit height
      · rw [if_pos hbit, if_pos hbit, if_pos hbit, ih hk, Nat.one_shiftLeft, List.cons_append,
          Nat.add_assoc]
      · rw [if_neg hbit, if_neg hbit, if_neg hbit, ih hk, Nat.zero_add]
    · have hbit : (2 ^ (k + 1) * q + 2 ^ k).testBit k = true := by
        rw [hlow k (Nat.lt_succ_self k), Nat.testBit_two_pow_self]
      have hnil : ∀ s, below (2 ^ (k + 1) * q + 2 ^ k) s k = [] := by
        intro s
        apply below_eq_nil
        intro j hj
        rw [hlow j (Nat.lt_succ_of_lt hj), Nat.testBit_two_pow_of_ne (Nat.ne_of_gt hj)]
      rw [below, if_pos hbit, hnil, below_eq_nil hlow', Nat.mul_mod_right, Nat.add_zero,
        List.nil_append]

theorem all_add (q k : Nat) :
    all (2 ^ (k + 1) * q + 2 ^ k) = all (2 ^ (k + 1) * q) ++ [⟨2 ^ (k + 1) * q, k⟩] := by
  have hlt : 2 ^ (k + 1) * q + 2 ^ k < 2 ^ ((2 ^ (k + 1) * q + 2 ^ k).log2 + 1) := Nat.lt_log2_self
  have hlt' : 2 ^ (k + 1) * q < 2 ^ ((2 ^ (k + 1) * q + 2 ^ k).log2 + 1) :=
    Nat.lt_of_le_of_lt (Nat.le_add_right _ _) hlt
  have hk : k < (2 ^ (k + 1) * q + 2 ^ k).log2 + 1 :=
    (Nat.pow_lt_pow_iff_right (by decide)).1 (Nat.lt_of_le_of_lt (Nat.le_add_left _ _) hlt)
  rw [all, below_add q hk, below_eq_all hlt', Nat.mod_eq_of_lt hlt', Nat.zero_add]

/-! ## The leaves of a mountain -/

theorem length_leaves {m : Mountain} {leaves : List Node} (h : m.start + m.size ≤ leaves.length) :
    (m.leaves leaves).length = 2 ^ m.height := by
  rw [size_eq] at h
  rw [Mountain.leaves, List.length_take, List.length_drop, size_eq]
  omega

theorem getElem?_leaves {m : Mountain} {leaves : List Node} {index : Nat} (h : m.Covers index) :
    (m.leaves leaves)[index - m.start]? = leaves[index]? := by
  rcases h with ⟨hstart, hend⟩
  rw [Mountain.leaves, List.getElem?_take_of_lt (by omega), List.getElem?_drop]
  congr 1
  omega

-- Every mountain has a peak.
theorem exists_peak {leaves : List Node} {m : Mountain} (join : Node → Node → Node)
    (h : m ∈ all leaves.length) : ∃ peak, Layer.top? join (m.leaves leaves) = some peak := by
  apply Layer.exists_top?
  apply List.ne_nil_of_length_pos
  rw [length_leaves (end_le h)]
  exact Nat.two_pow_pos m.height

-- Leaves that come later do not belong to a mountain that ends before them.
theorem leaves_append_left {m : Mountain} {leaves : List Node} (h : m.start + m.size ≤ leaves.length)
    (more : List Node) : m.leaves (leaves ++ more) = m.leaves leaves := by
  rw [Mountain.leaves, Mountain.leaves, List.drop_append_of_le_length (by omega),
    List.take_append_of_le_length (by rw [List.length_drop]; omega)]

theorem leaves_append_right {height : Nat} (leaves : List Node) {more : List Node}
    (h : more.length = 2 ^ height) : (Mountain.mk leaves.length height).leaves (leaves ++ more) = more := by
  rw [Mountain.leaves, size_eq, List.drop_left, ← h, List.take_length]

/-! ## From a leaf to the peak -/

-- In a perfect tree the siblings of a leaf are as many as the tree is high, and they lead to the
-- top.
theorem ascend_path {height position : Nat} {layer : List Node} {node top : Node}
    (hlen : layer.length = 2 ^ height) (hnode : layer[position]? = some node)
    (htop : Layer.top? join layer = some top) :
    (Layer.path join layer position).length = height ∧
      ascend join position node (Layer.path join layer position) = top := by
  induction height generalizing layer position node with
  | zero =>
    obtain ⟨only, rfl⟩ : ∃ only, layer = [only] := List.length_eq_one_iff.1 hlen
    have hlt : position < 1 := (List.getElem?_eq_some_iff.1 hnode).1
    obtain rfl : position = 0 := by omega
    have htop : only = top := by simpa [Layer.top?] using htop
    have hnode : only = node := by simpa using hnode
    simp [Layer.path, ascend, ← hnode, htop]
  | succ height ih =>
    obtain ⟨other, hother⟩ := Layer.exists_sibling hlen (List.getElem?_eq_some_iff.1 hnode).1
    have habove := Layer.length_above_of_two_pow join hlen
    have hpos := Nat.two_pow_pos height
    rw [Nat.pow_succ] at hlen
    have hwidth : 2 ≤ layer.length := by omega
    rw [Layer.top?_of_two_le hwidth] at htop
    rcases ih habove (Layer.getElem?_above_half join hnode hother) htop with ⟨hlength, hascend⟩
    rw [Layer.path_of_two_le hwidth, hother, Option.toList_some, List.singleton_append,
      List.length_cons, hlength, ascend, hascend]
    exact ⟨rfl, rfl⟩

-- Bagging is the walk up the left edge.
theorem ascend_zero (join : Node → Node → Node) (node : Node) (siblings : List Node) :
    ascend join 0 node siblings = siblings.foldl join node := by
  induction siblings generalizing node with
  | nil => rfl
  | cons sibling siblings ih =>
    rw [ascend, Nat.zero_div, ih]
    rfl

/-! ## What is read of a mountain -/

-- Each layer of a perfect tree is half as wide as the one below.
theorem length_iterate_above (join : Node → Node → Node) {height k : Nat} {layer : List Node}
    (hlen : layer.length = 2 ^ height) (hk : k ≤ height) :
    ((Layer.above join)^[k] layer).length = 2 ^ (height - k) := by
  induction k with
  | zero => exact hlen
  | succ k ih =>
    rw [Function.iterate_succ_apply', Layer.length_above, ih (by omega),
      show height - k = height - (k + 1) + 1 by omega, Nat.pow_succ]
    omega

-- The layers of a perfect tree end with its top.
theorem iterate_above_eq_top {height : Nat} {layer : List Node} {top : Node}
    (hlen : layer.length = 2 ^ height) (htop : Layer.top? join layer = some top) :
    (Layer.above join)^[height] layer = [top] := by
  induction height generalizing layer with
  | zero =>
    obtain ⟨only, rfl⟩ : ∃ only, layer = [only] := List.length_eq_one_iff.1 hlen
    simpa [Layer.top?] using htop
  | succ height ih =>
    have habove := Layer.length_above_of_two_pow join hlen
    have hpos := Nat.two_pow_pos height
    rw [Nat.pow_succ] at hlen
    rw [Layer.top?_of_two_le (by omega)] at htop
    rw [Function.iterate_succ_apply]
    exact ih habove htop

-- In a perfect tree every node on the way to the top has a sibling in its layer.
theorem map_some_path (join : Node → Node → Node) {height position : Nat} {layer : List Node}
    (hlen : layer.length = 2 ^ height) (hposition : position < 2 ^ height) :
    (Layer.path join layer position).map some =
      (List.range height).map fun k =>
        ((Layer.above join)^[k] layer)[Layer.sibling (position / 2 ^ k)]? := by
  induction height generalizing layer position with
  | zero =>
    obtain ⟨only, rfl⟩ : ∃ only, layer = [only] := List.length_eq_one_iff.1 hlen
    simp [Layer.path]
  | succ height ih =>
    obtain ⟨other, hother⟩ := Layer.exists_sibling hlen (hlen ▸ hposition)
    have habove := Layer.length_above_of_two_pow join hlen
    have hpos := Nat.two_pow_pos height
    rw [Nat.pow_succ] at hlen hposition
    rw [Layer.path_of_two_le (by omega), List.map_append, ih habove (by omega),
      List.range_succ_eq_map, List.map_cons, List.map_map]
    have hrest : ∀ k, position / 2 / 2 ^ k = position / 2 ^ (k + 1) := by
      intro k
      rw [Nat.div_div_eq_div_mul, Nat.pow_succ']
    simp [hrest, hother, Function.iterate_succ_apply]

/-- A layer of a mountain over the leaves of a range, counted from its leaves. -/
def layer (join : Node → Node → Node) (leaves : List Node) (m : Mountain) (k : Nat) : List Node :=
  (Layer.above join)^[k] (m.leaves leaves)

/-- Whatever is read of a mountain, for its peak and for the siblings of its leaves, is there. -/
structure Readable (join : Node → Node → Node) (leaves : List Node) (m : Mountain) : Prop where
  -- It lies within the range.
  end_le : m.start + m.size ≤ leaves.length
  -- Its layers consist of pairs until there is a single node, the peak.
  even_layer : ∀ k < m.height,
    1 < (m.layer join leaves k).length ∧ (m.layer join leaves k).length % 2 = 0
  peak : ∃ peak, m.layer join leaves m.height = [peak] ∧
    Layer.top? join (m.leaves leaves) = some peak
  -- On the way from a leaf there is a sibling in every layer.
  siblings : ∀ position < m.size, (Layer.path join (m.leaves leaves) position).map some =
    (List.range m.height).map fun k =>
      (m.layer join leaves k)[Layer.sibling (position / 2 ^ k)]?

theorem readable (join : Node → Node → Node) {leaves : List Node} {m : Mountain}
    (h : m ∈ all leaves.length) : m.Readable join leaves where
  end_le := Mountain.end_le h
  even_layer := by
    intro k hk
    have hpos := Nat.two_pow_pos (m.height - (k + 1))
    rw [layer, length_iterate_above join (length_leaves (Mountain.end_le h)) (by omega),
      show m.height - k = m.height - (k + 1) + 1 by omega, Nat.pow_succ]
    omega
  peak := by
    rcases exists_peak join h with ⟨peak, hpeak⟩
    exact ⟨peak, iterate_above_eq_top (length_leaves (Mountain.end_le h)) hpeak, hpeak⟩
  siblings := by
    intro position hposition
    rw [size_eq] at hposition
    exact map_some_path join (length_leaves (Mountain.end_le h)) hposition

/-! ## From a leaf to the node over the range -/

/-- The peaks of all mountains over a list of leaves, left to right. -/
def peaks (join : Node → Node → Node) (leaves : List Node) : List Node :=
  (all leaves.length).filterMap fun m => Layer.top? join (m.leaves leaves)

/-- The node that stands for a list of leaves. -/
def root? (join : Node → Node → Node) (leaves : List Node) : Option Node :=
  bag? join (peaks join leaves)

theorem exists_root? (join : Node → Node → Node) {leaves : List Node} (h : leaves ≠ []) :
    ∃ root, root? join leaves = some root := by
  rcases exists_split (List.length_pos_iff.2 h) with ⟨left, m, right, hsplit, -⟩
  have hm := mem_of_split hsplit
  rcases exists_peak join hm with ⟨peak, hpeak⟩
  have hmem : peak ∈ peaks join leaves := List.mem_filterMap.2 ⟨m, hm, hpeak⟩
  unfold root?
  cases hpeaks : peaks join leaves with
  | nil => rw [hpeaks] at hmem; cases hmem
  | cons first others => exact ⟨_, rfl⟩

theorem insertIdx_length_append {α : Type} (left right : List α) (a : α) :
    (left ++ right).insertIdx left.length a = left ++ a :: right := by
  induction left with
  | nil => simp
  | cons b left ih => simp [ih]

theorem length_filterMap_peak (join : Node → Node → Node) {leaves : List Node}
    {mountains : List Mountain} (h : ∀ m ∈ mountains, m ∈ all leaves.length) :
    (mountains.filterMap fun m => Layer.top? join (m.leaves leaves)).length = mountains.length := by
  induction mountains with
  | nil => rfl
  | cons m mountains ih =>
    rcases exists_peak join (h m List.mem_cons_self) with ⟨peak, hpeak⟩
    have hrest := ih fun other hother => h other (List.mem_cons_of_mem m hother)
    simp only [List.filterMap_cons, hpeak, List.length_cons, hrest]

theorem findIdx?_append_cons {α : Type} {p : α → Prop} [DecidablePred p] {left : List α} {a : α}
    (hleft : ∀ b ∈ left, ¬p b) (ha : p a) (right : List α) :
    (left ++ a :: right).findIdx? (fun b => decide (p b)) = some left.length := by
  have hnone : left.findIdx? (fun b => decide (p b)) = none :=
    List.findIdx?_eq_none_iff.2 fun b hb => decide_eq_false (hleft b hb)
  rw [List.findIdx?_append, hnone, List.findIdx?_cons, if_pos (decide_eq_true ha)]
  simp

-- The first mountain that ends after a leaf is the one that covers it.
theorem findIdx?_split {left : List Mountain} {m : Mountain} {index : Nat} (hcovers : m.Covers index)
    (hleft : ∀ l ∈ left, l.start + l.size ≤ index) (right : List Mountain) :
    (left ++ m :: right).findIdx? (fun o => decide (index < o.start + o.size)) =
      some left.length :=
  findIdx?_append_cons (fun l hl => Nat.not_lt.2 (hleft l hl)) hcovers.2 right

-- No other mountain covers the leaf.
theorem partition_split {left right : List Mountain} {m : Mountain} {index : Nat}
    (hcovers : m.Covers index) (hleft : ∀ l ∈ left, l.start + l.size ≤ index)
    (hright : ∀ r ∈ right, index < r.start) :
    (left ++ m :: right).partition (fun o => decide (o.Covers index)) = ([m], left ++ right) := by
  have hl : ∀ l ∈ left, ¬l.Covers index := fun l hl hc => Nat.not_lt.2 (hleft l hl) hc.2
  have hr : ∀ r ∈ right, ¬r.Covers index := fun r hr hc => Nat.not_le.2 (hright r hr) hc.1
  have hnone : ∀ others : List Mountain, (∀ o ∈ others, ¬o.Covers index) →
      others.filter (fun o => decide (o.Covers index)) = [] ∧
        others.filter (not ∘ fun o => decide (o.Covers index)) = others := by
    intro others hothers
    constructor
    · rw [List.filter_eq_nil_iff]
      intro o ho
      simpa using hothers o ho
    · rw [List.filter_eq_self]
      intro o ho
      simpa using hothers o ho
  rw [List.partition_eq_filter_filter, List.filter_append, List.filter_append, (hnone left hl).1,
    (hnone left hl).2, List.filter_cons_of_pos (by simpa using hcovers), (hnone right hr).1,
    List.filter_cons_of_neg (by simpa using hcovers), (hnone right hr).2]
  rfl

theorem exists_append_of_length {α : Type} {row : List α} {n k : Nat} (h : row.length = n + k) :
    ∃ front back, row = front ++ back ∧ front.length = n ∧ back.length = k := by
  refine ⟨row.take n, row.drop n, (List.take_append_drop n row).symm, ?_, ?_⟩
  · rw [List.length_take]
    omega
  · rw [List.length_drop]
    omega

-- A walk starts at a leaf of the range.
theorem lt_of_climb? {leafCount index : Nat} {leaf top : Node} {items : List Node}
    (h : climb? join leafCount index leaf items = some top) : index < leafCount := by
  apply Nat.lt_of_not_le
  intro hle
  rw [climb?, if_pos hle] at h
  cases h

section Split

variable {leafCount index : Nat} {leaf top : Node} {items siblings before after : List Node}
  {left right : List Mountain} {m : Mountain} (hsplit : all leafCount = left ++ m :: right)
  (hcovers : m.Covers index) (hleft : ∀ l ∈ left, l.start + l.size ≤ index)
include hsplit hcovers hleft

-- A walk finds the mountain of its leaf, and all else follows from the number of items.
theorem climb?_eq_ite : climb? join leafCount index leaf items =
    if items.length = m.height + (left.length + right.length) then
      bag? join ((items.drop m.height).insertIdx left.length
        (ascend join (index - m.start) leaf (items.take m.height)))
    else none := by
  have hlt : index < leafCount := Nat.lt_of_lt_of_le hcovers.2 (end_le (mem_of_split hsplit))
  have hfind := findIdx?_split hcovers hleft right
  rw [← hsplit] at hfind
  have hget : (all leafCount)[left.length]? = some m := by
    rw [hsplit]
    simp
  have hcount : (all leafCount).length - 1 = left.length + right.length := by
    rw [hsplit]
    simp
  simp only [climb?, if_neg (Nat.not_le.2 hlt), hfind, hget, hcount]

/-- A walk uses the siblings in the leaf's own mountain first, then the peaks before it and the peaks
after it. -/
theorem climb?_append (hsiblings : siblings.length = m.height) (hbefore : before.length = left.length)
    (hafter : after.length = right.length) :
    climb? join leafCount index leaf (siblings ++ (before ++ after)) =
      bag? join (before ++ ascend join (index - m.start) leaf siblings :: after) := by
  rw [climb?_eq_ite hsplit hcovers hleft, if_pos (by simp only [List.length_append]; omega),
    List.take_left' hsiblings, List.drop_left' hsiblings, ← hbefore, insertIdx_length_append]

theorem climb?_eq_none (hlength : items.length ≠ m.height + (left.length + right.length)) :
    climb? join leafCount index leaf items = none := by
  rw [climb?_eq_ite hsplit hcovers hleft, if_neg hlength]

/-- A walk that leads anywhere takes its items apart by the mountains. -/
theorem climb?_eq_some_iff :
    climb? join leafCount index leaf items = some top ↔
      ∃ siblings before after, items = siblings ++ (before ++ after) ∧
        siblings.length = m.height ∧ before.length = left.length ∧ after.length = right.length ∧
        bag? join (before ++ ascend join (index - m.start) leaf siblings :: after) = some top := by
  constructor
  · intro h
    by_cases hlength : items.length = m.height + (left.length + right.length)
    · obtain ⟨siblings, others, rfl, hsiblings, hothers⟩ := exists_append_of_length hlength
      obtain ⟨before, after, rfl, hbefore, hafter⟩ := exists_append_of_length hothers
      rw [climb?_append hsplit hcovers hleft hsiblings hbefore hafter] at h
      exact ⟨siblings, before, after, rfl, hsiblings, hbefore, hafter, h⟩
    · rw [climb?_eq_none hsplit hcovers hleft hlength] at h
      cases h
  · rintro ⟨siblings, before, after, rfl, hsiblings, hbefore, hafter, h⟩
    rwa [climb?_append hsplit hcovers hleft hsiblings hbefore hafter]

end Split

/-- The siblings of a leaf in its mountain and the peaks of the other mountains lead from the leaf to
the node over the range. -/
theorem climb?_path (join : Node → Node → Node) {leaves : List Node} {left right : List Mountain}
    {m : Mountain} {index : Nat} {leaf : Node} (hsplit : all leaves.length = left ++ m :: right)
    (hcovers : m.Covers index) (hleft : ∀ l ∈ left, l.start + l.size ≤ index)
    (hleaf : leaves[index]? = some leaf) :
    climb? join leaves.length index leaf
        (Layer.path join (m.leaves leaves) (index - m.start) ++
          (left ++ right).filterMap fun o => Layer.top? join (o.leaves leaves)) =
      root? join leaves := by
  have hmem : ∀ o, o ∈ left ∨ o = m ∨ o ∈ right → o ∈ all leaves.length := by
    intro o ho
    rw [hsplit]
    simpa using ho
  have hm := hmem m (.inr (.inl rfl))
  rcases exists_peak join hm with ⟨peak, hpeak⟩
  rcases ascend_path (length_leaves (end_le hm))
      ((getElem?_leaves hcovers).trans hleaf) hpeak with ⟨hpath, hascend⟩
  have hbefore := length_filterMap_peak join fun o ho => hmem o (.inl ho)
  have hafter := length_filterMap_peak join fun o ho => hmem o (.inr (.inr ho))
  rw [List.filterMap_append, climb?_append hsplit hcovers hleft hpath hbefore hafter, hascend, root?,
    peaks, hsplit, List.filterMap_append, List.filterMap_cons, hpeak]

-- The number of items is that of the shape of the range, so there are few.
theorem length_items_of_climb? {leafCount index : Nat}
    {leaf top : Node} {items : List Node}
    (h : climb? join leafCount index leaf items = some top) :
    items.length ≤ 2 * leafCount.log2 := by
  rcases exists_split (lt_of_climb? h) with ⟨left, m, right, hsplit, hcovers, hleft, -⟩
  rcases (climb?_eq_some_iff hsplit hcovers hleft).1 h with
    ⟨siblings, before, after, rfl, hsiblings, hbefore, hafter, -⟩
  have hheight : m.height ≤ leafCount.log2 := height_le (mem_of_split hsplit)
  have hcount := length_below_le leafCount 0 (leafCount.log2 + 1)
  change (all leafCount).length ≤ _ at hcount
  rw [hsplit, List.length_append, List.length_cons] at hcount
  simp only [List.length_append]
  omega

/-! ## What the node over a range is made of -/

section Made

variable {P : Node → Prop} (hjoin : ∀ a b, P a → P b → P (join a b))
include hjoin

theorem joinAt_induction {position : Nat} {node other : Node} (hnode : P node) (hother : P other) :
    P (Layer.joinAt join position node other) := by
  unfold Layer.joinAt
  split
  · exact hjoin node other hnode hother
  · exact hjoin other node hother hnode

theorem ascend_induction {position : Nat} {node : Node} {siblings : List Node} (hnode : P node)
    (hsiblings : ∀ n ∈ siblings, P n) : P (ascend join position node siblings) := by
  induction siblings generalizing position node with
  | nil => exact hnode
  | cons sibling siblings ih =>
    rw [ascend]
    apply ih
    · exact joinAt_induction hjoin hnode (hsiblings sibling List.mem_cons_self)
    · exact fun n hn => hsiblings n (List.mem_cons_of_mem sibling hn)

theorem bag?_induction {row : List Node} {top : Node} (hrow : ∀ n ∈ row, P n)
    (h : bag? join row = some top) : P top := by
  cases row with
  | nil => cases h
  | cons first others =>
    injection h with h
    rw [← h, ← ascend_zero]
    apply ascend_induction hjoin (hrow first List.mem_cons_self)
    exact fun n hn => hrow n (List.mem_cons_of_mem first hn)

-- What holds of the leaves and is kept by the join holds of the node over the range.
theorem root?_induction {leaves : List Node} {top : Node} (hleaves : ∀ n ∈ leaves, P n)
    (h : root? join leaves = some top) : P top := by
  apply bag?_induction hjoin _ h
  intro peak hpeak
  rcases List.mem_filterMap.1 hpeak with ⟨m, -, htop⟩
  apply Layer.top?_induction hjoin _ htop
  intro n hn
  exact hleaves n (List.mem_of_mem_drop (List.mem_of_mem_take hn))

-- What holds of a leaf and of the items and is kept by the join holds of where they lead.
theorem climb?_induction {leafCount index : Nat} {leaf top : Node} {items : List Node}
    (hleaf : P leaf) (hitems : ∀ n ∈ items, P n)
    (h : climb? join leafCount index leaf items = some top) : P top := by
  rcases exists_split (lt_of_climb? h) with ⟨left, m, right, hsplit, hcovers, hleft, -⟩
  rcases (climb?_eq_some_iff hsplit hcovers hleft).1 h with
    ⟨siblings, before, after, rfl, -, -, -, hbag⟩
  simp only [List.mem_append] at hitems
  apply bag?_induction hjoin _ hbag
  intro n hn
  rcases List.mem_append.1 hn with hbefore | hn
  · exact hitems n (.inr (.inl hbefore))
  · rcases List.mem_cons.1 hn with rfl | hafter
    · exact ascend_induction hjoin hleaf fun n hn => hitems n (.inl hn)
    · exact hitems n (.inr (.inr hafter))

end Made

/-! ## Maps of nodes -/

section Map

variable {f : Node → Other} (hf : ∀ a b, f (join a b) = join' (f a) (f b))
include hf

theorem map_ascend (position : Nat) (node : Node) (siblings : List Node) :
    f (ascend join position node siblings) = ascend join' position (f node) (siblings.map f) := by
  induction siblings generalizing position node with
  | nil => rfl
  | cons sibling siblings ih => rw [ascend, ih, Layer.map_joinAt hf, List.map_cons, ascend]

theorem map_bag? (row : List Node) : (bag? join row).map f = bag? join' (row.map f) := by
  cases row with
  | nil => rfl
  | cons first others =>
    rw [bag?, Option.map_some, ← ascend_zero, map_ascend hf, ascend_zero, List.map_cons, bag?]

omit hf in
theorem map_leaves (m : Mountain) (leaves : List Node) :
    (m.leaves leaves).map f = m.leaves (leaves.map f) := by
  rw [Mountain.leaves, Mountain.leaves, List.map_take, List.map_drop]

theorem map_filterMap_peak (mountains : List Mountain) (leaves : List Node) :
    (mountains.filterMap fun m => Layer.top? join (m.leaves leaves)).map f =
      mountains.filterMap fun m => Layer.top? join' (m.leaves (leaves.map f)) := by
  rw [List.map_filterMap]
  simp only [Layer.map_top? hf, map_leaves]

theorem map_root? (leaves : List Node) : (root? join leaves).map f = root? join' (leaves.map f) := by
  rw [root?, map_bag? hf, root?, peaks, peaks, map_filterMap_peak hf, List.length_map]

theorem map_climb? (leafCount index : Nat) (leaf : Node) (items : List Node) :
    (climb? join leafCount index leaf items).map f =
      climb? join' leafCount index (f leaf) (items.map f) := by
  simp only [climb?, List.length_map]
  by_cases hrange : leafCount ≤ index
  · rw [if_pos hrange, if_pos hrange]
    rfl
  · rw [if_neg hrange, if_neg hrange]
    cases (all leafCount).findIdx? fun m => decide (index < m.start + m.size) with
    | none => rfl
    | some i =>
      dsimp only
      cases (all leafCount)[i]? with
      | none => rfl
      | some m =>
        dsimp only
        by_cases hlen : items.length = m.height + ((all leafCount).length - 1)
        · rw [if_pos hlen, if_pos hlen, map_bag? hf, List.map_insertIdx, map_ascend hf,
            List.map_take, List.map_drop]
        · rw [if_neg hlen, if_neg hlen]
          rfl

end Map

end FinalityBridge.Mountain
