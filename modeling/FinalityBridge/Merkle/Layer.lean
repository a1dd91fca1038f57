import FinalityBridge.Bytes

/-!
# Layers of a hash tree

A hash tree is built layer by layer: two neighbours are joined, and the last node of a layer of odd
width moves up unchanged. The number of nodes above a layer is `length_above`, so building ends. The
root is found by passes over the layers (`root?`), a proof on the way up from one node (`ascent`); both
build the layer above (`pass_eq_layer`).
-/

namespace FinalityBridge.Merkle

abbrev Hasher := Bytes → Hash

/-- The node above two nodes: the digest of one after the other. -/
def join (hash : Hasher) (left right : Hash) : Hash := hash (left.bytes ++ right.bytes)

namespace Layer

variable {Node : Type} (join : Node → Node → Node)

def above : List Node → List Node
  | left :: right :: rest => join left right :: above rest
  | rest => rest

theorem length_above : (layer : List Node) → (above join layer).length = (layer.length + 1) / 2
  | [] => by simp [above]
  | [_] => by simp [above]
  | _ :: _ :: rest => by
    have := length_above rest
    simp [above]
    omega

/-- The single node at the top of the layers above a layer that is not empty. -/
def top? : List Node → Option Node
  | [] => none
  | [node] => some node
  | left :: right :: rest => top? (above join (left :: right :: rest))
termination_by layer => layer.length
decreasing_by simp [length_above]; omega

/-- What a pass over a layer comes to: its only node, or the layer above it. -/
inductive Pass (Node : Type) where
  | root (node : Node)
  | layer (nodes : List Node)

/-- Passes over a layer, two nodes at a time. `next` holds what the layer above has so far. -/
def pass (next : List Node) : List Node → Pass Node
  | left :: right :: rest => pass (next ++ [join left right]) rest
  | [node] => if next.isEmpty then .root node else .layer (next ++ [node])
  | [] => .layer next

theorem pass_eq_layer {next layer : List Node} (h : next ≠ [] ∨ layer.length ≠ 1) :
    pass join next layer = .layer (next ++ above join layer) := by
  fun_induction pass join next layer with
  | case1 next left right rest ih =>
    rw [ih (.inl (List.append_ne_nil_of_right_ne_nil _ (List.cons_ne_nil _ _))), above]
    simp
  | case2 next node hempty => simp_all
  | case3 next node _ => rfl
  | case4 next => rw [above, List.append_nil]; nofun

theorem pass_cases (layer : List Node) :
    (∃ node, layer = [node] ∧ pass join [] layer = .root node) ∨
      (layer.length ≠ 1 ∧ pass join [] layer = .layer (above join layer)) := by
  by_cases hone : layer.length = 1
  · obtain ⟨node, rfl⟩ := List.length_eq_one_iff.1 hone
    exact .inl ⟨node, rfl, rfl⟩
  · exact .inr ⟨hone, pass_eq_layer join (.inr hone)⟩

-- Passing ends, since the layer above is narrower.
theorem length_lt_of_pass {layer nodes : List Node} (h : pass join [] layer = .layer nodes)
    (hne : nodes ≠ []) : nodes.length < layer.length := by
  obtain ⟨node, -, hpass⟩ | ⟨hone, hpass⟩ := pass_cases join layer
  · rw [hpass] at h
    cases h
  · rw [hpass] at h
    cases h
    have hpos := List.length_pos_iff.2 hne
    rw [length_above] at hpos ⊢
    omega

/-- The root that passes over a layer come to. There is none if the layer is empty. -/
def root? (layer : List Node) : Option Node :=
  match hpass : pass join [] layer with
  | .root node => some node
  | .layer [] => none
  | .layer (first :: rest) =>
    have : (first :: rest).length < layer.length :=
      length_lt_of_pass join hpass (List.cons_ne_nil first rest)
    root? (first :: rest)
termination_by layer.length

/-- The position next to `position` under the same node. -/
def sibling (position : Nat) : Nat := if position % 2 = 0 then position + 1 else position - 1

/-- The siblings met on the way from `position` to the top, bottom up. A node that moves up
unchanged has none. -/
def path : List Node → (position : Nat) → List Node
  | left :: right :: rest, position =>
    let layer := left :: right :: rest
    layer[sibling position]?.toList ++ path (above join layer) (position / 2)
  | _, _ => []
termination_by layer => layer.length
decreasing_by simp [length_above]; omega

/-- Goes up from `position`, layer by layer, and adds the siblings on the way to `siblings`. The other
part is the last layer, in which there are no two nodes. -/
def ascent (siblings layer : List Node) (position : Nat) : List Node × List Node :=
  if 1 < layer.length then
    ascent (siblings ++ layer[sibling position]?.toList) (above join layer) (position / 2)
  else (siblings, layer)
termination_by layer.length
decreasing_by rw [length_above]; omega

/-- Joins a node with its sibling, in the order that the parity of its position gives. -/
def joinAt (position : Nat) (node sibling : Node) : Node :=
  if position % 2 = 0 then join node sibling else join sibling node

/-- The node at the top of layers of which the lowest is `width` wide, when `node` is at `position`
of the lowest and `items` are the siblings on its way; with the items that are left over. There is
none if the items run out. -/
def climb? (width position : Nat) (node : Node) (items : List Node) : Option (Node × List Node) :=
  if width ≤ 1 then some (node, items)
  else if width % 2 = 1 ∧ position = width - 1 then
    climb? ((width + 1) / 2) (position / 2) node items
  else
    match items with
    | [] => none
    | item :: rest =>
      climb? ((width + 1) / 2) (position / 2) (joinAt join position node item) rest
termination_by width
decreasing_by all_goals omega

end Layer

end FinalityBridge.Merkle
