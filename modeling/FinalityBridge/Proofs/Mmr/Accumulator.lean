import FinalityBridge.Proofs.Mmr.Inclusion

/-!
# A range as an accumulator

The peaks of a range can be kept up to date leaf by leaf, without the leaves. A new leaf is a peak of
height zero to the right of all others, and as long as the two rightmost peaks have the same height,
they are joined. What is then on the stack are the peaks of the range over all leaves so far, mountain by
mountain, and they are bagged to its root (`accumulates`).
-/

namespace FinalityBridge

open Merkle

/-- A peak on the stack. -/
structure Peak (Node : Type) where
  -- The height of its mountain.
  height : Nat
  node : Node
deriving DecidableEq

namespace Peak

variable {Node : Type} {join : Node → Node → Node}

/-- A peak put to the right of a stack, which lists the rightmost peak first. As long as the next peak
has the same height, it is joined with that. -/
def settle (join : Node → Node → Node) (peak : Peak Node) : List (Peak Node) → List (Peak Node)
  | [] => [peak]
  | left :: rest =>
    if left.height = peak.height then
      settle join ⟨peak.height + 1, join left.node peak.node⟩ rest
    else peak :: left :: rest

def push (join : Node → Node → Node) (stack : List (Peak Node)) (leaf : Node) : List (Peak Node) :=
  settle join ⟨0, leaf⟩ stack

/-- The peaks over leaves that are pushed one after the other, from left to right. -/
def pushAll (join : Node → Node → Node) (leaves : List Node) : List (Peak Node) :=
  (leaves.foldl (push join) []).reverse

/-- The peaks of a stack stand over a list of leaves: each over the last ones that no peak to its right
stands over, which fill a mountain of its height, lower than those to its left. -/
inductive StandOver (join : Node → Node → Node) : List (Peak Node) → List Node → Prop
  | nil : StandOver join [] []
  | cons {peak : Peak Node} {stack : List (Peak Node)} {leaves own : List Node}
    (hstack : StandOver join stack leaves) (hlower : ∀ p ∈ stack, peak.height < p.height)
    (hlength : own.length = 2 ^ peak.height) (htop : Layer.top? join own = some peak.node) :
    StandOver join (peak :: stack) (leaves ++ own)

/-! ## One push -/

/-- Putting a peak to the right of others that are not lower carries it up to where it stands. -/
theorem StandOver.settle {peak : Peak Node} {stack : List (Peak Node)} {leaves own : List Node}
    (h : StandOver join stack leaves) (hle : ∀ p ∈ stack, peak.height ≤ p.height)
    (hlength : own.length = 2 ^ peak.height) (htop : Layer.top? join own = some peak.node) :
    StandOver join (settle join peak stack) (leaves ++ own) := by
  induction h generalizing peak own with
  | nil => exact .cons .nil (fun _ hp => nomatch hp) hlength htop
  | @cons left rest leaves leftOwn hrest hlower hleftLength hleftTop ih =>
    rw [Peak.settle]
    by_cases heq : left.height = peak.height
    · -- Two mountains of one height make a mountain of the next, which is not above those before it.
      have hbelow : ∀ p ∈ rest, peak.height + 1 ≤ p.height := fun p hp => heq ▸ hlower p hp
      have hboth : (leftOwn ++ own).length = 2 ^ (peak.height + 1) := by
        rw [List.length_append, hleftLength, hlength, heq, Nat.pow_succ]
        omega
      have hjoined := Layer.top?_append (heq ▸ hleftLength) (Nat.le_of_eq hlength) hleftTop htop
      rw [if_pos heq, List.append_assoc]
      exact ih hbelow hboth hjoined
    · rw [if_neg heq]
      have hlt : peak.height < left.height :=
        Nat.lt_of_le_of_ne (hle left List.mem_cons_self) (Ne.symm heq)
      refine .cons (.cons hrest hlower hleftLength hleftTop) ?_ hlength htop
      intro p hp
      rcases List.mem_cons.1 hp with rfl | hp
      · exact hlt
      · exact Nat.lt_trans hlt (hlower p hp)

theorem StandOver.push {stack : List (Peak Node)} {leaves : List Node}
    (h : StandOver join stack leaves) (leaf : Node) :
    StandOver join (push join stack leaf) (leaves ++ [leaf]) :=
  h.settle (fun _ _ => Nat.zero_le _) rfl (by rw [Layer.top?])

/-! ## All pushes -/

theorem standOver_foldl {stack : List (Peak Node)} {leaves : List Node}
    (h : StandOver join stack leaves) (more : List Node) :
    StandOver join (more.foldl (Peak.push join) stack) (leaves ++ more) := by
  induction more generalizing stack leaves with
  | nil => rwa [List.append_nil]
  | cons leaf more ih =>
    have hmore := ih (h.push leaf)
    rwa [List.append_assoc, List.singleton_append] at hmore

theorem standOver_pushAll (join : Node → Node → Node) (leaves : List Node) :
    StandOver join (pushAll join leaves).reverse leaves := by
  rw [pushAll, List.reverse_reverse]
  exact standOver_foldl .nil leaves

-- The leaves under peaks of a certain height or more are that many times a number.
theorem StandOver.two_pow_dvd {stack : List (Peak Node)} {leaves : List Node} {k : Nat}
    (h : StandOver join stack leaves) (hle : ∀ p ∈ stack, k ≤ p.height) : 2 ^ k ∣ leaves.length := by
  induction h with
  | nil => exact Nat.dvd_zero _
  | cons hstack hlower hlength htop ih =>
    rw [List.length_append, hlength]
    apply Nat.dvd_add
    · exact ih fun p hp => hle p (List.mem_cons_of_mem _ hp)
    · exact Nat.pow_dvd_pow 2 (hle _ List.mem_cons_self)

/-- The peaks that stand over a list of leaves are those of its mountains. -/
theorem StandOver.mountains {stack : List (Peak Node)} {leaves : List Node}
    (h : StandOver join stack leaves) :
    (stack.reverse.map fun p => (p.height, some p.node)) =
      (Mountain.all leaves.length).map fun m => (m.height, Layer.top? join (m.leaves leaves)) := by
  induction h with
  | nil => simp [Mountain.all, Mountain.below]
  | @cons peak stack leaves own hstack hlower hlength htop ih =>
    obtain ⟨q, hq⟩ := hstack.two_pow_dvd hlower
    have hall : Mountain.all (leaves ++ own).length =
        Mountain.all leaves.length ++ [⟨leaves.length, peak.height⟩] := by
      rw [List.length_append, hlength, hq]
      exact Mountain.all_add q peak.height
    have hleft : ∀ m ∈ Mountain.all leaves.length, m.leaves (leaves ++ own) = m.leaves leaves :=
      fun m hm => Mountain.leaves_append_left (Mountain.end_le hm) own
    rw [List.reverse_cons, List.map_append, ih, hall, List.map_append]
    congr 1
    · apply List.map_congr_left
      intro m hm
      rw [hleft m hm]
    · rw [List.map_singleton, List.map_singleton, Mountain.leaves_append_right leaves hlength, htop]

-- Seven leaves make a mountain of four, one of two and a single leaf.
example : pushAll (· + ·) [1, 2, 3, 4, 5, 6, 7] = [⟨2, 1 + 2 + 3 + 4⟩, ⟨1, 5 + 6⟩, ⟨0, 7⟩] := by decide

end Peak

namespace MountainRange

/-- Pushes leaves one after the other: the indices that they get, and the range after the last. -/
def pushes (range : MountainRange) : List Hash → List Nat × MountainRange
  | [] => ([], range)
  | leaf :: leaves =>
    let (index, range) := range.push leaf
    let (indices, range) := range.pushes leaves
    (index :: indices, range)

theorem pushes_eq (range : MountainRange) (leaves : List Hash) :
    range.pushes leaves =
      (List.range' range.leafCount leaves.length, ⟨range.leaves ++ leaves⟩) := by
  induction leaves generalizing range with
  | nil => simp [pushes]
  | cons leaf leaves ih => simp [pushes, push, ih, leafCount, List.range'_succ]

theorem pushAll_mountains (hash : Hasher) (leaves : List Hash) :
    (Peak.pushAll (join hash) leaves).map (fun p => (p.height, some p.node)) =
      (Mountain.all leaves.length).map fun m => (m.height, peak? hash ⟨leaves⟩ m) := by
  have hmountains := (Peak.standOver_pushAll (join hash) leaves).mountains
  rwa [List.reverse_reverse] at hmountains

theorem pushAll_heights (hash : Hasher) (leaves : List Hash) :
    (Peak.pushAll (join hash) leaves).map Peak.height =
      (Mountain.all leaves.length).map Mountain.height := by
  have hheights := congrArg (List.map Prod.fst) (pushAll_mountains hash leaves)
  rwa [List.map_map, List.map_map] at hheights

theorem pushAll_nodes (hash : Hasher) (leaves : List Hash) :
    (Peak.pushAll (join hash) leaves).map Peak.node = Mountain.peaks (join hash) leaves := by
  have hnodes := congrArg (List.filterMap Prod.snd) (pushAll_mountains hash leaves)
  rw [List.filterMap_map, List.filterMap_map] at hnodes
  rw [← List.filterMap_eq_map]
  exact hnodes

-- Leaves without a peak would have no root.
theorem pushAll_ne_nil (hash : Hasher) {leaves : List Hash} (h : leaves ≠ []) :
    Peak.pushAll (join hash) leaves ≠ [] := by
  intro hnil
  obtain ⟨top, htop⟩ := Mountain.exists_root? (join hash) h
  rw [Mountain.root?, ← pushAll_nodes, hnil] at htop
  cases htop

/-- What the range over leaves that are pushed one after the other has in common with the peaks over
them. -/
structure Accumulates (hash : Hasher) (leaves : List Hash) : Prop where
  -- A push gives the number of leaves before it.
  indices : (empty.pushes leaves).1 = List.range leaves.length
  leafCount : (empty.pushes leaves).2.leafCount = leaves.length
  -- The peaks are bagged from left to right.
  root : leaves ≠ [] → ∃ first others, Peak.pushAll (join hash) leaves = first :: others ∧
    (empty.pushes leaves).2.root hash = (others.map Peak.node).foldl (join hash) first.node
  root_nil : leaves = [] → (empty.pushes leaves).2.root hash = .zero
  -- Their heights are the bits that are set in the number of leaves, the highest first.
  descending : ((Peak.pushAll (join hash) leaves).map Peak.height).Pairwise (· > ·)
  mem_heights : ∀ k, k ∈ (Peak.pushAll (join hash) leaves).map Peak.height ↔
    leaves.length.testBit k = true
  -- Each is the peak of its mountain.
  peaks : (Peak.pushAll (join hash) leaves).map (fun p => (p.height, some p.node)) =
    (Mountain.all leaves.length).map fun m => (m.height, (empty.pushes leaves).2.peak? hash m)

/-- Over any leaves, the peaks that are kept leaf by leaf are those of the range. -/
theorem accumulates (hash : Hasher) (leaves : List Hash) : Accumulates hash leaves := by
  have hpushes : empty.pushes leaves = (List.range leaves.length, ⟨leaves⟩) := by
    rw [pushes_eq, List.range_eq_range']
    rfl
  have hroot : root hash ⟨leaves⟩ =
      (Mountain.bag? (join hash) ((Peak.pushAll (join hash) leaves).map Peak.node)).getD .zero := by
    rw [root_eq_getD, Mountain.root?, pushAll_nodes]
  constructor
  case indices => rw [hpushes]
  case leafCount => rw [hpushes, MountainRange.leafCount]
  case root =>
    intro hne
    obtain ⟨first, others, hpeaks⟩ := List.exists_cons_of_ne_nil (pushAll_ne_nil hash hne)
    refine ⟨first, others, hpeaks, ?_⟩
    rw [hpushes, hroot, hpeaks, List.map_cons, Mountain.bag?, Option.getD_some]
  case root_nil =>
    rintro rfl
    exact hroot
  case descending =>
    rw [pushAll_heights]
    exact Mountain.heights_below_descending _ _ _
  case mem_heights =>
    intro k
    rw [pushAll_heights]
    exact Mountain.mem_heights_all
  case peaks =>
    rw [hpushes]
    exact pushAll_mountains hash leaves

end MountainRange

end FinalityBridge
