import Mathlib.Order.Bounds.Defs
import FinalityBridge.Proofs.Merkle.Membership

/-!
# Hash trees from the top down

A hash tree can be told from the top as well: the leaves are split at the largest power of two below
their number, and the root is the digest of the roots over both parts. Built layer by layer, it is the
same tree, with the same siblings on the way from each leaf (`splitsLeaves`).
-/

namespace FinalityBridge.Merkle

/-- Where `n` leaves are split, for two or more: at the largest power of two below `n`. -/
def splitPoint (n : Nat) : Nat := 2 ^ (n - 1).log2

theorem splitPoint_lt {n : Nat} (h : 2 ≤ n) : splitPoint n < n := by
  have hle : 2 ^ (n - 1).log2 ≤ n - 1 := Nat.log2_self_le (by omega)
  unfold splitPoint
  omega

-- The second part is not wider than the first.
theorem sub_splitPoint_le (n : Nat) : n - splitPoint n ≤ splitPoint n := by
  have hlt : n - 1 < 2 ^ ((n - 1).log2 + 1) := Nat.lt_log2_self
  rw [Nat.pow_succ] at hlt
  unfold splitPoint
  omega

theorem isGreatest_splitPoint {n : Nat} (h : 2 ≤ n) :
    IsGreatest {k | k < n ∧ ∃ e, k = 2 ^ e} (splitPoint n) := by
  refine ⟨⟨splitPoint_lt h, (n - 1).log2, rfl⟩, ?_⟩
  rintro k ⟨hlt, e, rfl⟩
  have hle : e ≤ (n - 1).log2 := (Nat.le_log2 (by omega)).2 (by omega)
  exact Nat.pow_le_pow_right (by decide) hle

section Parts

variable {α : Type} {leaves : List α}

theorem length_take_splitPoint (h : 2 ≤ leaves.length) :
    (leaves.take (splitPoint leaves.length)).length = splitPoint leaves.length := by
  have hlt := splitPoint_lt h
  rw [List.length_take]
  omega

theorem length_drop_splitPoint_lt (h : 2 ≤ leaves.length) :
    (leaves.drop (splitPoint leaves.length)).length < leaves.length := by
  have hpos : 0 < splitPoint leaves.length := Nat.two_pow_pos _
  rw [List.length_drop]
  omega

theorem take_splitPoint_ne_nil (h : 2 ≤ leaves.length) :
    leaves.take (splitPoint leaves.length) ≠ [] := by
  apply List.ne_nil_of_length_pos
  rw [length_take_splitPoint h]
  exact Nat.two_pow_pos _

theorem drop_splitPoint_ne_nil (h : 2 ≤ leaves.length) :
    leaves.drop (splitPoint leaves.length) ≠ [] := by
  have hlt := splitPoint_lt h
  apply List.ne_nil_of_length_pos
  rw [List.length_drop]
  omega

end Parts

/-- The root over a list of leaves, told from the top: all zeros for none, the digest of a single one,
else the digest of the roots over the two parts. -/
def splitRoot (hash : Hasher) (leaves : List Bytes) : Hash :=
  match leaves with
  | [] => .zero
  | [leaf] => hash leaf
  | first :: second :: rest =>
    let leaves := first :: second :: rest
    let k := splitPoint leaves.length
    hash ((splitRoot hash (leaves.take k)).bytes ++ (splitRoot hash (leaves.drop k)).bytes)
termination_by leaves.length
decreasing_by
  · have hwidth : 2 ≤ (first :: second :: rest).length := by simp
    rw [length_take_splitPoint hwidth]
    exact splitPoint_lt hwidth
  · exact length_drop_splitPoint_lt (by simp)

/-- The roots over the parts that are left aside on the way down to a leaf, bottom up. -/
def auditPath (hash : Hasher) (leaves : List Bytes) (index : Nat) : List Hash :=
  match leaves with
  | first :: second :: rest =>
    let leaves := first :: second :: rest
    let k := splitPoint leaves.length
    if index < k then auditPath hash (leaves.take k) index ++ [splitRoot hash (leaves.drop k)]
    else auditPath hash (leaves.drop k) (index - k) ++ [splitRoot hash (leaves.take k)]
  | _ => []
termination_by leaves.length
decreasing_by
  · have hwidth : 2 ≤ (first :: second :: rest).length := by simp
    rw [length_take_splitPoint hwidth]
    exact splitPoint_lt hwidth
  · exact length_drop_splitPoint_lt (by simp)

section Split

variable {hash : Hasher} {leaves : List Bytes}

theorem map_hash_split (hash : Hasher) (leaves : List Bytes) :
    (leaves.take (splitPoint leaves.length)).map hash ++
      (leaves.drop (splitPoint leaves.length)).map hash = leaves.map hash := by
  rw [← List.map_append, List.take_append_drop]

-- The layer over the first part is perfect, and the one over the second part is not wider.
theorem length_map_hash_take (h : 2 ≤ leaves.length) :
    ((leaves.take (splitPoint leaves.length)).map hash).length = 2 ^ (leaves.length - 1).log2 := by
  rw [List.length_map, length_take_splitPoint h, splitPoint]

theorem length_map_hash_drop_le (hash : Hasher) (leaves : List Bytes) :
    ((leaves.drop (splitPoint leaves.length)).map hash).length ≤ 2 ^ (leaves.length - 1).log2 := by
  rw [List.length_map, List.length_drop]
  exact sub_splitPoint_le leaves.length

theorem top?_map_hash (hash : Hasher) (h : leaves ≠ []) :
    Layer.top? (join hash) (leaves.map hash) = some (splitRoot hash leaves) := by
  fun_induction splitRoot hash leaves with
  | case1 => exact absurd rfl h
  | case2 leaf => simp [Layer.top?]
  | case3 first second rest leaves k ihTake ihDrop =>
    have hwidth : 2 ≤ leaves.length := by simp [leaves]
    have htake := ihTake (take_splitPoint_ne_nil hwidth)
    have hdrop := ihDrop (drop_splitPoint_ne_nil hwidth)
    rw [← map_hash_split]
    exact Layer.top?_append (length_map_hash_take hwidth) (length_map_hash_drop_le hash leaves) htake
      hdrop

theorem path_map_hash {index : Nat} (h : index < leaves.length) :
    Layer.path (join hash) (leaves.map hash) index = auditPath hash leaves index := by
  fun_induction auditPath hash leaves index with
  | case1 index first second rest leaves k hindex ih =>
    have hwidth : 2 ≤ leaves.length := by simp [leaves]
    have hlt : index < (leaves.take k).length := by rwa [length_take_splitPoint hwidth]
    have hdrop := top?_map_hash hash (drop_splitPoint_ne_nil hwidth)
    rw [← map_hash_split, Layer.path_append_left (length_map_hash_take hwidth)
      (length_map_hash_drop_le hash leaves) hdrop (by rwa [List.length_map]), ih hlt]
  | case2 index first second rest leaves k hindex ih =>
    have hwidth : 2 ≤ leaves.length := by simp [leaves]
    have hlen : ((leaves.take k).map hash).length = k := by
      rw [List.length_map]
      exact length_take_splitPoint hwidth
    have hrest : index - k < (leaves.drop k).length := by
      rw [List.length_drop]
      exact Nat.sub_lt_sub_right (Nat.not_lt.1 hindex) h
    have hposition : index - k < ((leaves.drop k).map hash).length := by rwa [List.length_map]
    have htake := top?_map_hash hash (take_splitPoint_ne_nil hwidth)
    have hpath := Layer.path_append_right (length_map_hash_take hwidth)
      (length_map_hash_drop_le hash leaves) htake hposition
    rw [ih hrest, map_hash_split, hlen, Nat.add_sub_cancel' (Nat.not_lt.1 hindex)] at hpath
    exact hpath
  | case3 leaves index hleaves =>
    rcases Layer.eq_nil_or_singleton hleaves with rfl | ⟨leaf, rfl⟩
    · simp [Layer.path]
    · simp [Layer.path]

end Split

/-- What the root and the proofs over a list of leaves are, told from the top. -/
structure SplitsLeaves (hash : Hasher) (leaves : List Bytes) : Prop where
  -- Two leaves or more are split at the largest power of two below their number.
  isGreatest : 2 ≤ leaves.length →
    IsGreatest {k | k < leaves.length ∧ ∃ e, k = 2 ^ e} (splitPoint leaves.length)
  -- The root over the leaves is that of the split tree, and all zeros if there are none.
  root_eq : leaves ≠ [] → root hash leaves = splitRoot hash leaves
  root_nil : leaves = [] → root hash leaves = .zero
  -- The proof for a leaf names the root, the number of leaves, the index and the leaf, and lists the
  -- audit path in the split tree.
  prove?_eq_some : ∀ index leaf, leaves[index]? = some leaf →
    prove? hash leaves index = some
      { root := splitRoot hash leaves
        siblings := auditPath hash leaves index
        leafCount := leaves.length
        leafIndex := index
        leaf }
  prove?_eq_none : ∀ index, leaves.length ≤ index → prove? hash leaves index = none

/-- The tree that is built layer by layer is the one that is split from the top. -/
theorem splitsLeaves (hash : Hasher) (leaves : List Bytes) : SplitsLeaves hash leaves := by
  have hroot : leaves ≠ [] → root hash leaves = splitRoot hash leaves := by
    intro hne
    rw [root_eq_top?, top?_map_hash hash hne, Option.getD_some]
  refine ⟨isGreatest_splitPoint, hroot, ?_, ?_, ?_⟩
  · rintro rfl
    simp [root_eq_top?, Layer.top?]
  · intro index leaf hleaf
    have hlt : index < leaves.length := (List.getElem?_eq_some_iff.1 hleaf).1
    have hne : leaves ≠ [] := List.ne_nil_of_mem (List.mem_of_getElem? hleaf)
    rw [prove?_eq_map, hleaf, Option.map_some, hroot hne, path_map_hash hlt]
  · intro index hindex
    rw [prove?_eq_map, List.getElem?_eq_none hindex, Option.map_none]

end FinalityBridge.Merkle
