import Mathlib.Logic.Relation
import FinalityBridge.Proofs.Merkle.Width

/-!
# The climb to a root, layer by layer

A proof is checked by going up one layer at a time, with the width of the layer and the position in it
as numbers of 64 bits. On the way up the position stays in the layer and no number is cut, as long as
one more than the number of leaves fits (`Climb.InRange`). Every layer is narrower than the one below
it, so the climb ends, at the top or where an item is missing. Where it starts settles how many items
it uses (`climb_fixes_items`), and a proof with any other number of them is refused.
-/

namespace FinalityBridge.Merkle

/-- Where a climb to the root stands. -/
structure Climb (Node : Type) where
  -- The width of the layer that it has come to, and the position in it.
  width : UInt64
  position : UInt64
  node : Node
  -- The items that are left.
  items : List Node
deriving DecidableEq

namespace Climb

variable {Node : Type} {join : Node → Node → Node} {c next start last : Climb Node}

/-! ## One layer up -/

/-- Whether the node is the last of a layer of odd width, so that it has no sibling. -/
def IsLast (c : Climb Node) : Prop := c.width % 2 = 1 ∧ c.position = c.width - 1

instance (c : Climb Node) : Decidable c.IsLast := inferInstanceAs (Decidable (_ ∧ _))

/-- The climb one layer further up. There is nothing above the top, and no way up for a node whose
sibling is not among the items. -/
def up? (join : Node → Node → Node) (c : Climb Node) : Option (Climb Node) :=
  if c.width ≤ 1 then none
  else if c.IsLast then
    some { c with width := (c.width + 1) / 2, position := c.position / 2 }
  else
    match c.items with
    | [] => none
    | item :: rest =>
      some
        { width := (c.width + 1) / 2
          position := c.position / 2
          node := if c.position % 2 = 0 then join c.node item else join item c.node
          items := rest }

theorem up?_cases (h : c.up? join = some next) :
    1 < c.width ∧ next.width = (c.width + 1) / 2 ∧ next.position = c.position / 2 ∧
      ((c.IsLast ∧ next.node = c.node ∧ next.items = c.items) ∨
        (¬c.IsLast ∧ ∃ item, c.items = item :: next.items ∧
          next.node = Layer.joinAt join c.position.toNat c.node item)) := by
  unfold up? at h
  split at h
  next => cases h
  next hwidth =>
    split at h
    next hlast =>
      cases h
      exact ⟨UInt64.not_le.1 hwidth, rfl, rfl, .inl ⟨hlast, rfl, rfl⟩⟩
    next hlast =>
      split at h
      next => cases h
      next item rest hitems =>
        cases h
        exact ⟨UInt64.not_le.1 hwidth, rfl, rfl,
          .inr ⟨hlast, item, hitems, (Layer.joinAt_toNat ..).symm⟩⟩

theorem up?_eq_none (h : c.up? join = none) :
    c.width ≤ 1 ∨ (1 < c.width ∧ ¬c.IsLast ∧ c.items = []) := by
  unfold up? at h
  split at h
  next hwidth => exact .inl hwidth
  next hwidth =>
    split at h
    next => cases h
    next hlast =>
      split at h
      next hitems => exact .inr ⟨UInt64.not_le.1 hwidth, hlast, hitems⟩
      next => cases h

/-! ## Numbers in range -/

/-- Whether the numbers of a climb are in range: the position is in the layer, and the sum of which the
next width is the half fits into 64 bits. -/
structure InRange (c : Climb Node) : Prop where
  position_lt : c.position < c.width
  succ_lt : c.width.toNat + 1 < 2 ^ 64

/-- The number of items that the climb uses from here on, if it is not short of them. -/
def needs (c : Climb Node) : Nat := Layer.itemCount c.width.toNat c.position.toNat

/-- The node at the top and the items that are left there, in exact numbers. -/
def top? (join : Node → Node → Node) (c : Climb Node) : Option (Node × List Node) :=
  Layer.climb? join c.width.toNat c.position.toNat c.node c.items

namespace InRange

theorem isLast_iff (h : c.InRange) :
    c.IsLast ↔ c.width.toNat % 2 = 1 ∧ c.position.toNat = c.width.toNat - 1 := by
  have hlt := UInt64.lt_iff_toNat_lt.1 h.position_lt
  have hone : (1 : UInt64) ≤ c.width := UInt64.le_iff_toNat_le.2 (Nat.one_le_of_lt hlt)
  rw [IsLast, ← UInt64.toNat_inj, ← UInt64.toNat_inj, UInt64.toNat_mod,
    UInt64.toNat_sub_of_le _ _ hone]
  rfl

-- Both halves are the exact ones.
theorem toNat_up (h : c.InRange) (hup : c.up? join = some next) :
    2 ≤ c.width.toNat ∧ next.width.toNat = (c.width.toNat + 1) / 2 ∧
      next.position.toNat = c.position.toNat / 2 := by
  obtain ⟨hwidth, hnext, hposition, -⟩ := up?_cases hup
  have hsum : (c.width + 1).toNat = c.width.toNat + 1 := by
    rw [UInt64.toNat_add]
    exact Nat.mod_eq_of_lt h.succ_lt
  rw [hnext, hposition, UInt64.toNat_div, UInt64.toNat_div, hsum]
  exact ⟨UInt64.lt_iff_toNat_lt.1 hwidth, rfl, rfl⟩

/-- One layer up the numbers are in range again, and the layer is narrower. -/
theorem up (h : c.InRange) (hup : c.up? join = some next) : next.InRange ∧ next.width < c.width := by
  obtain ⟨htwo, hwidth, hposition⟩ := h.toNat_up hup
  have hlt := UInt64.lt_iff_toNat_lt.1 h.position_lt
  have hsucc := h.succ_lt
  refine ⟨⟨UInt64.lt_iff_toNat_lt.2 ?_, ?_⟩, UInt64.lt_iff_toNat_lt.2 ?_⟩ <;> omega

/-- One layer up the climb leads to the same node, and it needs as many items less as it has used. -/
theorem rest_up (h : c.InRange) (hup : c.up? join = some next) :
    next.top? join = c.top? join ∧
      ∃ used, c.items = used ++ next.items ∧ c.needs = used.length + next.needs := by
  obtain ⟨htwo, hwidth, hposition⟩ := h.toNat_up hup
  obtain ⟨-, -, -, ⟨hlast, hnode, hitems⟩ | ⟨hlast, item, hitems, hnode⟩⟩ := up?_cases hup
  · rw [h.isLast_iff] at hlast
    constructor
    · rw [top?, top?, Layer.climb?_last htwo hlast, hwidth, hposition, hnode, hitems]
    · refine ⟨[], hitems.symm, ?_⟩
      rw [needs, needs, Layer.itemCount_last htwo hlast, hwidth, hposition, List.length_nil,
        Nat.zero_add]
  · rw [h.isLast_iff] at hlast
    constructor
    · rw [top?, top?, hitems, Layer.climb?_cons htwo hlast, hwidth, hposition, hnode]
    · refine ⟨[item], hitems, ?_⟩
      rw [needs, needs, Layer.itemCount_sibling htwo hlast, hwidth, hposition, List.length_singleton,
        Nat.add_comm]

/-- Where there is no way up, the climb is at the top, or the item for a sibling is missing. -/
theorem top_or_missing (h : c.InRange) (hup : c.up? join = none) :
    (c.width = 1 ∧ c.position = 0 ∧ c.needs = 0 ∧ c.top? join = some (c.node, c.items)) ∨
      (1 < c.width ∧ c.items = [] ∧ 0 < c.needs ∧ c.top? join = none) := by
  have hlt := UInt64.lt_iff_toNat_lt.1 h.position_lt
  rcases up?_eq_none hup with hwidth | ⟨hwidth, hlast, hitems⟩
  · have hone : c.width.toNat = 1 := by
      have hle := UInt64.le_iff_toNat_le.1 hwidth
      change c.width.toNat ≤ 1 at hle
      omega
    refine .inl ⟨UInt64.toNat_inj.1 hone, UInt64.toNat_inj.1 (show _ = 0 by omega), ?_, ?_⟩
    · rw [needs, hone, Layer.itemCount, if_pos (Nat.le_refl 1)]
    · rw [top?, hone, Layer.climb?.eq_def, if_pos (Nat.le_refl 1)]
  · have htwo : 2 ≤ c.width.toNat := UInt64.lt_iff_toNat_lt.1 hwidth
    rw [h.isLast_iff] at hlast
    refine .inr ⟨hwidth, hitems, ?_, ?_⟩
    · rw [needs, Layer.itemCount_sibling htwo hlast]
      exact Nat.succ_pos _
    · rw [top?, hitems, Layer.climb?, if_neg (by omega), if_neg hlast]

end InRange

/-! ## The whole climb -/

/-- Whether a climb comes from where it starts to where it stands, layer by layer. -/
abbrev Reaches (join : Node → Node → Node) : Climb Node → Climb Node → Prop :=
  Relation.ReflTransGen fun c next => c.up? join = some next

theorem InRange.of_reaches (h : start.InRange) (hreach : Reaches join start c) : c.InRange := by
  induction hreach with
  | refl => exact h
  | tail _ hup ih => exact (ih.up hup).1

theorem InRange.rest_of_reaches (h : start.InRange) (hreach : Reaches join start c) :
    c.top? join = start.top? join ∧
      ∃ used, start.items = used ++ c.items ∧ start.needs = used.length + c.needs := by
  induction hreach with
  | refl => exact ⟨rfl, [], rfl, (Nat.zero_add _).symm⟩
  | tail hreach hup ih =>
    obtain ⟨htop, used, hitems, hneeds⟩ := ih
    obtain ⟨htop', more, hitems', hneeds'⟩ := (h.of_reaches hreach).rest_up hup
    refine ⟨htop'.trans htop, used ++ more, ?_, ?_⟩
    · rw [hitems, hitems', List.append_assoc]
    · rw [hneeds, hneeds', List.length_append, Nat.add_assoc]

-- A climb cannot go on for ever, since the layers get narrower.
theorem InRange.exists_last (h : start.InRange) (join : Node → Node → Node) :
    ∃ last, Reaches join start last ∧ last.up? join = none := by
  induction hwidth : start.width.toNat using Nat.strongRecOn generalizing start with
  | ind width ih =>
    subst hwidth
    cases hup : start.up? join with
    | none => exact ⟨start, .refl, hup⟩
    | some next =>
      obtain ⟨hnext, hlt⟩ := h.up hup
      obtain ⟨last, hreach, hlast⟩ := ih _ (UInt64.lt_iff_toNat_lt.1 hlt) hnext rfl
      exact ⟨last, .head hup hreach, hlast⟩

/-- Whether a climb has ended at the top after `count` of its items. -/
structure AtTop (count : Nat) (items : List Node) (last : Climb Node) : Prop where
  width_eq : last.width = 1
  position_eq : last.position = 0
  le_length : count ≤ items.length
  items_eq : last.items = items.drop count

/-- Whether a climb has ended below the top, since it has fewer items than the `count` it needs. -/
structure OutOfItems (count : Nat) (items : List Node) (last : Climb Node) : Prop where
  width_gt : 1 < last.width
  length_lt : items.length < count
  items_eq : last.items = []

/-- Where a climb ends, it is at the top or out of items. -/
theorem InRange.atTop_or_outOfItems (h : start.InRange) (hreach : Reaches join start last)
    (hlast : last.up? join = none) :
    (AtTop start.needs start.items last ∧ start.top? join = some (last.node, last.items)) ∨
      (OutOfItems start.needs start.items last ∧ start.top? join = none) := by
  obtain ⟨htop, used, hitems, hneeds⟩ := h.rest_of_reaches hreach
  rw [← htop, hitems]
  rcases (h.of_reaches hreach).top_or_missing hlast with
    ⟨hwidth, hposition, hzero, hend⟩ | ⟨hwidth, hnil, hpos, hend⟩
  · have hused : start.needs = used.length := by omega
    refine .inl ⟨⟨hwidth, hposition, ?_, ?_⟩, hend⟩
    · rw [List.length_append]
      omega
    · rw [hused, List.drop_left]
  · refine .inr ⟨⟨hwidth, ?_, hnil⟩, hend⟩
    rw [hnil, List.append_nil]
    omega

end Climb

/-! ## The check of a proof -/

open Climb

variable {leafCount leafIndex : UInt64}

/-- The climb by which a proof is checked, at the leaf. -/
def Climb.ofLeaf (hash : Hasher) (leafCount leafIndex : UInt64) (leaf : Bytes) (items : List Hash) :
    Climb Hash where
  width := leafCount
  position := leafIndex
  node := hash leaf
  items := items

-- The climb from a leaf ends at the top just where the walk in exact numbers does.
theorem verify_iff_reaches {hash : Hasher} {root : Hash} {leaf : Bytes} {items : List Hash}
    (h : (ofLeaf hash leafCount leafIndex leaf items).InRange) :
    verify hash root items leafCount.toNat leafIndex.toNat leaf = true ↔
      ∃ last, Reaches (join hash) (ofLeaf hash leafCount leafIndex leaf items) last ∧
        last.width ≤ 1 ∧ last.items = [] ∧ last.node = root := by
  have htop : verify hash root items leafCount.toNat leafIndex.toNat leaf = true ↔
      (ofLeaf hash leafCount leafIndex leaf items).top? (join hash) = some (root, []) := by
    rw [verify_eq_true_iff]
    exact and_iff_right (UInt64.lt_iff_toNat_lt.1 h.position_lt)
  rw [htop]
  constructor
  · intro hroot
    obtain ⟨last, hreach, hlast⟩ := h.exists_last (join hash)
    rcases h.atTop_or_outOfItems hreach hlast with ⟨hend, hnode⟩ | ⟨-, hnone⟩
    · rw [hroot, Option.some.injEq, Prod.mk.injEq] at hnode
      exact ⟨last, hreach, UInt64.le_of_eq hend.width_eq, hnode.2.symm, hnode.1.symm⟩
    · rw [hroot] at hnone
      cases hnone
  · rintro ⟨last, hreach, hwidth, hitems, rfl⟩
    have hlast : last.up? (join hash) = none := if_pos hwidth
    rcases h.atTop_or_outOfItems hreach hlast with ⟨-, hnode⟩ | ⟨hend, -⟩
    · rw [hnode, hitems]
    · exact absurd hend.width_gt (UInt64.not_lt.2 hwidth)

-- Only as many items as the walk uses can lead to a root.
theorem verify_eq_false_of_length_ne {hash : Hasher} {root : Hash} {leaf : Bytes} {items : List Hash}
    {width position : Nat} (h : items.length ≠ Layer.itemCount width position) :
    verify hash root items width position leaf = false := by
  apply Bool.eq_false_iff.2
  intro hverify
  exact h (Layer.length_items_of_climb? (verify_eq_true_iff.1 hverify).2)

theorem exists_prove?_length_siblings (hash : Hasher) {leaves : List Bytes} {position : Nat}
    (h : position < leaves.length) :
    ∃ proof, prove? hash leaves position = some proof ∧
      proof.siblings.length = Layer.itemCount leaves.length position := by
  refine ⟨_, by rw [prove?_eq_map, List.getElem?_eq_getElem h, Option.map_some], ?_⟩
  have hlength := @Layer.length_path _ (join hash) position (leaves.map hash) (by rwa [List.length_map])
  rwa [List.length_map] at hlength

/-- How a proof for the leaf at `leafIndex` of `leafCount` is checked. -/
structure FixesItems (hash : Hasher) (leafCount leafIndex : UInt64) : Prop where
  -- At every layer the position is below the width, and the sum for the next width is not cut.
  inRange : ∀ leaf items c,
    Reaches (join hash) (ofLeaf hash leafCount leafIndex leaf items) c → c.InRange
  -- Every layer is narrower than the one below it,
  width_lt : ∀ leaf items c next,
    Reaches (join hash) (ofLeaf hash leafCount leafIndex leaf items) c →
      c.up? (join hash) = some next → next.width < c.width
  -- so the climb ends,
  exists_last : ∀ leaf items, ∃ last,
    Reaches (join hash) (ofLeaf hash leafCount leafIndex leaf items) last ∧
      last.up? (join hash) = none
  -- and it does so at the top, unless it runs out of items. How many it uses hangs on nothing else.
  last : ∀ leaf items last,
    Reaches (join hash) (ofLeaf hash leafCount leafIndex leaf items) last →
      last.up? (join hash) = none →
        AtTop (Layer.itemCount leafCount.toNat leafIndex.toNat) items last ∨
          OutOfItems (Layer.itemCount leafCount.toNat leafIndex.toNat) items last
  -- The check holds if there is the root at the top and no item is left.
  verify_iff : ∀ root leaf items,
    verify hash root items leafCount.toNat leafIndex.toNat leaf = true ↔
      ∃ last, Reaches (join hash) (ofLeaf hash leafCount leafIndex leaf items) last ∧
        last.width ≤ 1 ∧ last.items = [] ∧ last.node = root
  -- Over any leaves, the proof has as many items as the climb uses,
  length_siblings : ∀ leaves : List Bytes, leaves.length = leafCount.toNat →
    ∃ proof, prove? hash leaves leafIndex.toNat = some proof ∧
      proof.siblings.length = Layer.itemCount leafCount.toNat leafIndex.toNat
  -- and with any other number of items nothing is a proof.
  verify_eq_false : ∀ root leaf items,
    items.length ≠ Layer.itemCount leafCount.toNat leafIndex.toNat →
      verify hash root items leafCount.toNat leafIndex.toNat leaf = false

/-- Up to the last number of leaves but one that fits into 64 bits, the check of a proof keeps its
numbers in range and ends, and the place of the leaf settles the number of its items. -/
theorem climb_fixes_items (hash : Hasher) (hindex : leafIndex < leafCount)
    (hcount : leafCount.toNat ≤ 2 ^ 64 - 2) : FixesItems hash leafCount leafIndex := by
  have hstart : ∀ leaf items, (ofLeaf hash leafCount leafIndex leaf items).InRange :=
    fun leaf items => ⟨hindex, show leafCount.toNat + 1 < 2 ^ 64 by omega⟩
  constructor
  case inRange => exact fun leaf items c hreach => (hstart leaf items).of_reaches hreach
  case width_lt =>
    intro leaf items c next hreach hup
    exact (((hstart leaf items).of_reaches hreach).up hup).2
  case exists_last => exact fun leaf items => (hstart leaf items).exists_last (join hash)
  case last =>
    intro leaf items last hreach hlast
    rcases (hstart leaf items).atTop_or_outOfItems hreach hlast with ⟨hend, -⟩ | ⟨hend, -⟩
    · exact .inl hend
    · exact .inr hend
  case verify_iff => exact fun root leaf items => verify_iff_reaches (hstart leaf items)
  case length_siblings =>
    intro leaves hlength
    rw [← hlength]
    apply exists_prove?_length_siblings
    rw [hlength]
    exact UInt64.lt_iff_toNat_lt.1 hindex
  case verify_eq_false => exact fun root leaf items hlength => verify_eq_false_of_length_ne hlength

-- The last of five moves up unchanged twice, so its proof has one item.
theorem last_of_five_fixes_items :
    (4 : UInt64) < 5 ∧ (5 : UInt64).toNat ≤ 2 ^ 64 - 2 ∧ Layer.itemCount 5 4 = 1 ∧
      FixesItems Keccak.digest 5 4 := by
  refine ⟨by decide, by decide, by simp [Layer.itemCount], ?_⟩
  exact climb_fixes_items Keccak.digest (by decide) (by decide)

-- With one leaf more the first sum is cut, and the climb is over above the lowest layer.
example : (Climb.mk 0xffffffffffffffff 0 1 [2]).up? (· + ·) = some ⟨0, 0, 3, []⟩ := by decide

end FinalityBridge.Merkle
