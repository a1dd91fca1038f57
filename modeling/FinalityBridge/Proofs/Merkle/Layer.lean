import Mathlib.Algebra.Ring.Nat
import FinalityBridge.Merkle.Layer

/-!
# Laws of the layers of a hash tree

The layer above a layer, the top of the layers and the siblings on the way to it fit together: the
walk from a node by its siblings ends at the top (`climb?_path`). A perfect part with no more than its
width beside it comes to its own top before it is joined (`top?_append`). All of it commutes with a
map of nodes that respects the join, so a walk over one kind of node can be followed over another.
-/

namespace FinalityBridge.Merkle.Layer

variable {Node Other : Type} {join : Node → Node → Node} {join' : Other → Other → Other}

theorem top?_of_two_le {layer : List Node} (h : 2 ≤ layer.length) :
    top? join layer = top? join (above join layer) := by
  match layer, h with
  | left :: right :: rest, _ => rw [top?]

theorem path_of_two_le {layer : List Node} (h : 2 ≤ layer.length) (position : Nat) :
    path join layer position =
      layer[sibling position]?.toList ++ path join (above join layer) (position / 2) := by
  match layer, h with
  | left :: right :: rest, _ => rw [path]

theorem top?_above (join : Node → Node → Node) (layer : List Node) :
    top? join (above join layer) = top? join layer := by
  fun_cases above join layer with
  | case1 left right rest => rw [top?_of_two_le (by simp : 2 ≤ (left :: right :: rest).length), above]
  | case2 hrest => rfl

-- A single node is at the end of its way already, so the step to the layer above holds of it, too.
theorem path_eq {layer : List Node} {position : Nat} (h : position < layer.length) :
    path join layer position =
      layer[sibling position]?.toList ++ path join (above join layer) (position / 2) := by
  by_cases hwidth : 2 ≤ layer.length
  · exact path_of_two_le hwidth position
  · obtain ⟨only, rfl⟩ : ∃ only, layer = [only] := List.length_eq_one_iff.1 (by omega)
    obtain rfl : position = 0 := by simpa using h
    simp [path, above, sibling]

-- Passes over the layers come to the top.
theorem root?_eq_top? (join : Node → Node → Node) (layer : List Node) :
    root? join layer = top? join layer := by
  fun_induction root? join layer with
  | case1 layer node hroot =>
    obtain ⟨only, rfl, hpass⟩ | ⟨-, hpass⟩ := pass_cases join layer
    · cases hroot
      rw [top?]
    · rw [hpass] at hroot
      cases hroot
  | case2 layer hnil =>
    obtain ⟨only, rfl, hpass⟩ | ⟨-, hpass⟩ := pass_cases join layer
    · cases hnil
    · rw [hpass, Pass.layer.injEq] at hnil
      rw [← top?_above, hnil, top?]
  | case3 layer first rest hnext _ ih =>
    obtain ⟨only, rfl, hpass⟩ | ⟨-, hpass⟩ := pass_cases join layer
    · cases hnext
    · rw [hpass, Pass.layer.injEq] at hnext
      rw [ih, ← hnext, top?_above]

-- The way up meets the siblings and ends at the top.
theorem ascent_eq (siblings layer : List Node) (position : Nat) :
    ascent join siblings layer position =
      (siblings ++ path join layer position, (top? join layer).toList) := by
  fun_induction ascent join siblings layer position with
  | case1 siblings layer position hwidth ih =>
    rw [ih, top?_above, path_of_two_le hwidth, List.append_assoc]
  | case2 siblings layer position hwidth =>
    match layer, hwidth with
    | [], _ => simp [path, top?]
    | [node], _ => simp [path, top?]
    | left :: right :: rest, hwidth => exact absurd (by simp) hwidth

-- A node has at most as many siblings on its way as there are nodes in its layer.
theorem length_path_le (layer : List Node) (position : Nat) :
    (path join layer position).length ≤ layer.length := by
  fun_induction path join layer position with
  | case1 left right rest position layer ih =>
    have hsibling : layer[sibling position]?.toList.length ≤ 1 := by
      cases layer[sibling position]? <;> simp
    rw [length_above] at ih
    rw [List.length_append]
    simp only [layer, List.length_cons] at ih hsibling ⊢
    omega
  | case2 => exact Nat.zero_le _

-- The layers above a layer that is not empty have a top.
theorem exists_top? (join : Node → Node → Node) {layer : List Node} (h : layer ≠ []) :
    ∃ top, top? join layer = some top := by
  fun_induction top? join layer with
  | case1 => exact absurd rfl h
  | case2 node => exact ⟨node, rfl⟩
  | case3 left right rest ih => exact ih (by simp [above])

-- What holds of the nodes of a layer and is kept by the join holds of the layer above.
theorem above_induction {P : Node → Prop} {layer : List Node}
    (hjoin : ∀ a b, P a → P b → P (join a b)) (hlayer : ∀ n ∈ layer, P n) :
    ∀ n ∈ above join layer, P n := by
  fun_induction above join layer with
  | case1 left right rest ih => simp_all
  | case2 rest hrest => exact hlayer

-- What holds of the nodes of a layer and is kept by the join holds of the top.
theorem top?_induction {P : Node → Prop} {layer : List Node} {top : Node}
    (hjoin : ∀ a b, P a → P b → P (join a b)) (hlayer : ∀ n ∈ layer, P n)
    (htop : top? join layer = some top) : P top := by
  fun_induction top? join layer with
  | case1 => cases htop
  | case2 node =>
    injection htop with htop
    exact htop ▸ hlayer node (List.mem_singleton_self node)
  | case3 left right rest ih => exact ih (above_induction hjoin hlayer) htop

/-! ## A node, its sibling and the node above -/

-- A layer that has no two neighbours is empty or a single node.
theorem eq_nil_or_singleton {layer : List Node}
    (h : ∀ left right rest, layer = left :: right :: rest → False) :
    layer = [] ∨ ∃ node, layer = [node] := by
  rcases layer with _ | ⟨left, _ | ⟨right, rest⟩⟩
  · exact .inl rfl
  · exact .inr ⟨left, rfl⟩
  · exact (h left right rest rfl).elim

theorem getElem?_above (layer : List Node) (i : Nat) :
    (above join layer)[i]? =
      match layer[2 * i]?, layer[2 * i + 1]? with
      | some left, some right => some (join left right)
      | some node, none => some node
      | none, _ => none := by
  fun_induction above join layer generalizing i with
  | case1 left right rest ih =>
    cases i with
    | zero => simp
    | succ i =>
      rw [List.getElem?_cons_succ, ih, show 2 * (i + 1) = 2 * i + 1 + 1 by omega]
      simp only [List.getElem?_cons_succ]
  | case2 rest hrest =>
    rcases eq_nil_or_singleton hrest with rfl | ⟨node, rfl⟩
    · simp
    · cases i with
      | zero => simp
      | succ i =>
        rw [show 2 * (i + 1) = 2 * i + 1 + 1 by omega]
        simp

-- A node has no sibling exactly if it is the last of a layer of odd width.
theorem getElem?_sibling_eq_none_iff {layer : List Node} {position : Nat}
    (h : position < layer.length) :
    layer[sibling position]? = none ↔ layer.length % 2 = 1 ∧ position = layer.length - 1 := by
  rw [List.getElem?_eq_none_iff, sibling]
  split <;> omega

-- Above a node stands its join with its sibling.
theorem getElem?_above_half (join : Node → Node → Node) {layer : List Node} {position : Nat}
    {node other : Node} (hnode : layer[position]? = some node)
    (hother : layer[sibling position]? = some other) :
    (above join layer)[position / 2]? = some (joinAt join position node other) := by
  rw [getElem?_above]
  unfold sibling at hother
  unfold joinAt
  by_cases hparity : position % 2 = 0
  · rw [if_pos hparity] at hother ⊢
    rw [show 2 * (position / 2) = position by omega, hnode, hother]
  · rw [if_neg hparity] at hother ⊢
    rw [show 2 * (position / 2) = position - 1 by omega,
      show position - 1 + 1 = position by omega, hnode, hother]

-- A node without sibling moves up unchanged.
theorem getElem?_above_half_last {layer : List Node} {position : Nat} {node : Node}
    (hnode : layer[position]? = some node) (hother : layer[sibling position]? = none) :
    (above join layer)[position / 2]? = some node := by
  have hlt : position < layer.length := (List.getElem?_eq_some_iff.1 hnode).1
  rcases (getElem?_sibling_eq_none_iff hlt).1 hother with ⟨hodd, hlast⟩
  rw [getElem?_above, show 2 * (position / 2) = position by omega, hnode,
    List.getElem?_eq_none (show layer.length ≤ position + 1 by omega)]

/-! ## A perfect part and what stands beside it -/

theorem length_above_of_two_pow (join : Node → Node → Node) {height : Nat} {layer : List Node}
    (h : layer.length = 2 ^ (height + 1)) : (above join layer).length = 2 ^ height := by
  rw [length_above, h, Nat.pow_succ]
  omega

-- Below its top, a perfect layer consists of pairs.
theorem exists_sibling {height position : Nat} {layer : List Node}
    (hlen : layer.length = 2 ^ (height + 1)) (h : position < layer.length) :
    ∃ other, layer[sibling position]? = some other := by
  apply Option.ne_none_iff_exists'.1
  intro hnone
  have hodd := ((getElem?_sibling_eq_none_iff h).1 hnone).1
  rw [Nat.pow_succ] at hlen
  omega

theorem above_append {left : List Node} (heven : left.length % 2 = 0) (right : List Node) :
    above join (left ++ right) = above join left ++ above join right := by
  fun_induction above join left with
  | case1 first second rest ih =>
    have hrest : rest.length % 2 = 0 := by
      simp only [List.length_cons] at heven
      omega
    rw [List.cons_append, List.cons_append, above, ih hrest, List.cons_append]
  | case2 rest hrest =>
    rcases eq_nil_or_singleton hrest with rfl | ⟨node, rfl⟩
    · rfl
    · cases heven

-- A single node is the top of its layer.
theorem eq_singleton_of_top? {layer : List Node} {top : Node} (hlen : layer.length ≤ 1)
    (h : top? join layer = some top) : layer = [top] := by
  match layer, hlen with
  | [], _ => simp [top?] at h
  | [node], _ => simpa [top?] using h

theorem sibling_add {n : Nat} (heven : n % 2 = 0) (position : Nat) :
    sibling (n + position) = n + sibling position := by
  unfold sibling
  split <;> split <;> omega

theorem sibling_lt {n position : Nat} (heven : n % 2 = 0) (h : position < n) :
    sibling position < n := by
  unfold sibling
  split <;> omega

section Append

variable {height position : Nat} {left right : List Node} {a b : Node}

/-- Next to a perfect part that is at least as wide, the top joins the tops of both parts. -/
theorem top?_append (hleft : left.length = 2 ^ height) (hright : right.length ≤ 2 ^ height)
    (ha : top? join left = some a) (hb : top? join right = some b) :
    top? join (left ++ right) = some (join a b) := by
  induction height generalizing left right with
  | zero =>
    rw [eq_singleton_of_top? (Nat.le_of_eq hleft) ha, eq_singleton_of_top? hright hb]
    simp [top?, above]
  | succ height ih =>
    have habove := length_above_of_two_pow join hleft
    rw [Nat.pow_succ] at hleft hright
    rw [← top?_above, above_append (by omega)]
    rw [← top?_above] at ha hb
    exact ih habove (by rw [length_above]; omega) ha hb

/-- The way from a node of the perfect part ends with the top of the other part. -/
theorem path_append_left (hleft : left.length = 2 ^ height) (hright : right.length ≤ 2 ^ height)
    (hb : top? join right = some b) (hposition : position < left.length) :
    path join (left ++ right) position = path join left position ++ [b] := by
  induction height generalizing left right position with
  | zero =>
    obtain ⟨first, rfl⟩ := List.length_eq_one_iff.1 hleft
    obtain rfl : position = 0 := by simpa using hposition
    rw [eq_singleton_of_top? hright hb]
    simp [path, above, sibling]
  | succ height ih =>
    have habove := length_above_of_two_pow join hleft
    rw [Nat.pow_succ] at hleft hright
    have hwidth : position < (left ++ right).length := by
      rw [List.length_append]
      omega
    rw [← top?_above] at hb
    rw [path_eq hwidth, above_append (by omega),
      ih habove (by rw [length_above]; omega) hb (by omega), path_eq hposition,
      List.getElem?_append_left (sibling_lt (by omega) hposition), List.append_assoc]

/-- The way from a node of the other part ends with the top of the perfect part. -/
theorem path_append_right (hleft : left.length = 2 ^ height) (hright : right.length ≤ 2 ^ height)
    (ha : top? join left = some a) (hposition : position < right.length) :
    path join (left ++ right) (left.length + position) = path join right position ++ [a] := by
  induction height generalizing left right position with
  | zero =>
    rw [eq_singleton_of_top? (Nat.le_of_eq hleft) ha]
    obtain ⟨second, rfl⟩ : ∃ second, right = [second] := List.length_eq_one_iff.1 (by omega)
    obtain rfl : position = 0 := by simpa using hposition
    simp [path, above, sibling]
  | succ height ih =>
    have habove := length_above_of_two_pow join hleft
    rw [Nat.pow_succ] at hleft hright
    have hwidth : left.length + position < (left ++ right).length := by
      rw [List.length_append]
      omega
    rw [← top?_above] at ha
    rw [path_eq hwidth, above_append (by omega), sibling_add (by omega),
      List.getElem?_append_right (Nat.le_add_right _ _), Nat.add_sub_cancel_left,
      show (left.length + position) / 2 = (above join left).length + position / 2 by omega,
      ih habove (by rw [length_above]; omega) ha (by rw [length_above]; omega),
      path_eq hposition, List.append_assoc]

end Append

/-! ## The walk to the top -/

-- The order of a node and its sibling is the same for a position in a machine word.
theorem joinAt_toNat (join : Node → Node → Node) (position : UInt64) (node other : Node) :
    joinAt join position.toNat node other =
      if position % 2 = 0 then join node other else join other node := by
  unfold joinAt
  refine if_congr ?_ rfl rfl
  rw [← UInt64.toNat_inj, UInt64.toNat_mod]
  rfl

-- The first step of a walk in a layer in which the node has a sibling.
theorem climb?_cons {width position : Nat} (hwidth : 2 ≤ width)
    (hlast : ¬(width % 2 = 1 ∧ position = width - 1)) (node item : Node) (items : List Node) :
    climb? join width position node (item :: items) =
      climb? join ((width + 1) / 2) (position / 2) (joinAt join position node item) items := by
  rw [climb?.eq_def, if_neg (by omega), if_neg hlast]

-- The first step of a walk in a layer in which the node has no sibling.
theorem climb?_last {width position : Nat} (hwidth : 2 ≤ width)
    (hlast : width % 2 = 1 ∧ position = width - 1) (node : Node) (items : List Node) :
    climb? join width position node items =
      climb? join ((width + 1) / 2) (position / 2) node items := by
  rw [climb?.eq_def, if_neg (by omega), if_pos hlast]

/-- From a node of a layer, the siblings on its way lead to the top and no other item is used. -/
theorem climb?_path {layer : List Node} {position : Nat} {node top : Node}
    (hnode : layer[position]? = some node) (htop : top? join layer = some top) (rest : List Node) :
    climb? join layer.length position node (path join layer position ++ rest) = some (top, rest) := by
  induction hn : layer.length using Nat.strongRecOn generalizing layer position node with
  | ind n ih =>
    subst hn
    have hlt : position < layer.length := (List.getElem?_eq_some_iff.1 hnode).1
    by_cases hwidth : 2 ≤ layer.length
    · have hlen := length_above join layer
      rw [top?_of_two_le hwidth] at htop
      rw [path_of_two_le hwidth]
      cases hother : layer[sibling position]? with
      | none =>
        have hlast := (getElem?_sibling_eq_none_iff hlt).1 hother
        rw [climb?_last hwidth hlast, ← hlen]
        exact ih _ (by omega) (getElem?_above_half_last hnode hother) htop rfl
      | some other =>
        have hlast : ¬(layer.length % 2 = 1 ∧ position = layer.length - 1) := by
          rw [← getElem?_sibling_eq_none_iff hlt, hother]
          exact Option.some_ne_none other
        rw [Option.toList_some, List.append_assoc, List.singleton_append, climb?_cons hwidth hlast,
          ← hlen]
        exact ih _ (by omega) (getElem?_above_half join hnode hother) htop rfl
    · obtain ⟨only, rfl⟩ : ∃ only, layer = [only] := List.length_eq_one_iff.1 (by omega)
      obtain rfl : position = 0 := by simpa using hlt
      have htop : only = top := by simpa [top?] using htop
      have hnode : only = node := by simpa using hnode
      rw [climb?.eq_def, if_pos (by simp), ← hnode, htop]
      simp [path]

/-! ## Maps of nodes -/

section Map

variable {f : Node → Other} (hf : ∀ a b, f (join a b) = join' (f a) (f b))
include hf

theorem map_above (layer : List Node) : (above join layer).map f = above join' (layer.map f) := by
  fun_induction above join layer with
  | case1 left right rest ih => simp [above, hf, ih]
  | case2 rest hrest =>
    rcases eq_nil_or_singleton hrest with rfl | ⟨node, rfl⟩
    · rfl
    · rfl

theorem map_top? (layer : List Node) : (top? join layer).map f = top? join' (layer.map f) := by
  fun_induction top? join layer with
  | case1 => simp [top?]
  | case2 node => simp [top?]
  | case3 left right rest ih =>
    rw [ih, map_above hf]
    simp only [List.map_cons]
    rw [← top?_of_two_le (by simp)]

theorem map_path (layer : List Node) (position : Nat) :
    (path join layer position).map f = path join' (layer.map f) position := by
  induction hn : layer.length using Nat.strongRecOn generalizing layer position with
  | ind n ih =>
    subst hn
    by_cases hwidth : 2 ≤ layer.length
    · have hlen := length_above join layer
      have hwidth' : 2 ≤ (layer.map f).length := by rwa [List.length_map]
      rw [path_of_two_le hwidth, path_of_two_le hwidth', List.map_append,
        ih _ (by omega) _ _ rfl, map_above hf, List.getElem?_map]
      cases layer[sibling position]? with
      | none => rfl
      | some other => rfl
    · match layer, hwidth with
      | [], _ => simp [path]
      | [node], _ => simp [path]
      | left :: right :: rest, hwidth => exact absurd (by simp) hwidth

theorem map_joinAt (position : Nat) (node other : Node) :
    f (joinAt join position node other) = joinAt join' position (f node) (f other) := by
  unfold joinAt
  split <;> exact hf _ _

theorem map_climb? (width position : Nat) (node : Node) (items : List Node) :
    (climb? join width position node items).map (Prod.map f (List.map f)) =
      climb? join' width position (f node) (items.map f) := by
  fun_induction climb? join width position node items with
  | case1 width position node items hwidth => rw [climb?.eq_def, if_pos hwidth]; rfl
  | case2 width position node items hwidth hlast ih => rw [ih, ← climb?_last (by omega) hlast]
  | case3 width position node hwidth hlast => rw [List.map_nil, climb?, if_neg hwidth, if_neg hlast]; rfl
  | case4 width position node hwidth hlast item items ih =>
    rw [ih, List.map_cons, climb?_cons (by omega) hlast, map_joinAt hf]

end Map

end FinalityBridge.Merkle.Layer
