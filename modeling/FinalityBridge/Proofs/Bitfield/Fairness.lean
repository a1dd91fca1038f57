import Mathlib.Data.List.Permutation
import Mathlib.Data.Nat.Factorial.Basic
import Mathlib.Order.Interval.Set.Nat
import FinalityBridge.Proofs.Bitfield.Sample

/-!
# Draws are fair

Whoever picks the offsets picks the sample: different offsets draw different rows, and every row of
different entries is drawn by some offsets (`bijOn_draw`). So each set of positions is the sample for
equally many of the offsets that a challenge may take (`draws_fairly`).
-/

namespace FinalityBridge

open Nat (factorial)

section Draw

variable {α : Type}

/-- The offsets that `n` draws from `m` entries may take: each is below the number of entries that are
left. -/
def offsetsFor (m n : Nat) : Set (List Nat) :=
  {offsets | offsets.length = n ∧ ∀ k offset, offsets[k]? = some offset → offset < m - k}

/-- The rows of `n` different entries of a list. -/
def rowsOf (entries : List α) (n : Nat) : Set (List α) :=
  {row | row.length = n ∧ row.Nodup ∧ row ⊆ entries}

/-- A list with the entries at two positions swapped, if it has both. -/
def swapped (entries : List α) (i j : Nat) : List α :=
  match entries[i]?, entries[j]? with
  | some a, some b => (entries.set i b).set j a
  | _, _ => entries

/-- The draws in place, from position `k` on: the entry at `k` is swapped with the one at the offset
from it. -/
def shuffle (k : Nat) (entries : List α) : (offsets : List Nat) → List α
  | [] => entries
  | offset :: offsets => shuffle (k + 1) (swapped entries k (k + offset)) offsets

/-! ## One draw -/

theorem mem_offsetsFor {m n : Nat} {offsets : List Nat} :
    offsets ∈ offsetsFor m n ↔
      offsets.length = n ∧ ∀ k offset, offsets[k]? = some offset → offset < m - k := Iff.rfl

theorem mem_rowsOf {entries row : List α} {n : Nat} :
    row ∈ rowsOf entries n ↔ row.length = n ∧ row.Nodup ∧ row ⊆ entries := Iff.rfl

theorem cons_mem_offsetsFor {m n offset : Nat} {offsets : List Nat} :
    offset :: offsets ∈ offsetsFor m (n + 1) ↔ offset < m ∧ offsets ∈ offsetsFor (m - 1) n := by
  rw [mem_offsetsFor, mem_offsetsFor, List.length_cons, Nat.add_right_cancel_iff]
  constructor
  · rintro ⟨hlength, hlt⟩
    refine ⟨hlt 0 offset rfl, hlength, ?_⟩
    intro k next hnext
    have hlt := hlt (k + 1) next hnext
    omega
  · rintro ⟨hfirst, hlength, hlt⟩
    refine ⟨hlength, ?_⟩
    intro k next hnext
    cases k with
    | zero =>
      injection hnext with hnext
      rwa [← hnext]
    | succ k =>
      have hlt := hlt k next hnext
      omega

theorem draw_nil (entries : List α) : draw entries [] = [] := by
  cases entries <;> rfl

/-- A draw brings the entry at the offset to the front, and the other draws are from what is left. -/
theorem exists_swapped {entries : List α} {offset : Nat} {entry : α}
    (h : entries[offset]? = some entry) :
    ∃ left, swapped entries 0 offset = entry :: left ∧ (entry :: left).Perm entries ∧
      left.length = entries.length - 1 ∧
      ∀ offsets, draw entries (offset :: offsets) = entry :: draw left offsets := by
  cases entries with
  | nil => cases h
  | cons head rest =>
    cases offset with
    | zero =>
      injection h with h
      subst h
      exact ⟨rest, by simp [swapped], .refl _, rfl, fun _ => rfl⟩
    | succ offset =>
      rw [List.getElem?_cons_succ] at h
      refine ⟨rest.set offset head, by simp [swapped, h], cons_set_perm h head, by simp, ?_⟩
      intro offsets
      rw [draw, h]

-- What stands before the entries stays where it is.
theorem swapped_append (front entries : List α) (offset : Nat) :
    swapped (front ++ entries) front.length (front.length + offset) =
      front ++ swapped entries 0 offset := by
  unfold swapped
  rw [List.getElem?_append_right (Nat.le_refl _), Nat.sub_self,
    List.getElem?_append_right (Nat.le_add_right _ _), Nat.add_sub_cancel_left]
  cases entries[0]? with
  | none => rfl
  | some a =>
    cases entries[offset]? with
    | none => rfl
    | some b => simp

/-! ## All draws -/

/-- Shuffled in place, the drawn entries come first. -/
theorem exists_shuffle_eq (front : List α) {entries : List α} {n : Nat} {offsets : List Nat}
    (h : offsets ∈ offsetsFor entries.length n) :
    ∃ others, shuffle front.length (front ++ entries) offsets =
      front ++ (draw entries offsets ++ others) := by
  induction offsets generalizing front entries n with
  | nil => exact ⟨entries, by rw [shuffle, draw_nil, List.nil_append]⟩
  | cons offset offsets ih =>
    obtain ⟨n, rfl⟩ : ∃ k, n = k + 1 := ⟨offsets.length, h.1.symm⟩
    rcases cons_mem_offsetsFor.1 h with ⟨hlt, hrest⟩
    rcases exists_swapped (List.getElem?_eq_getElem hlt) with ⟨left, hswapped, -, hleft, hdraw⟩
    rcases ih (front ++ [entries[offset]]) (hleft ▸ hrest) with ⟨others, hothers⟩
    refine ⟨others, ?_⟩
    rw [shuffle, swapped_append, hswapped, hdraw]
    simpa using hothers

theorem length_draw_of_mem {entries : List α} {n : Nat} {offsets : List Nat}
    (h : offsets ∈ offsetsFor entries.length n) : (draw entries offsets).length = n := by
  rw [length_draw, h.1]
  intro k hk
  exact h.2 k _ (List.getElem?_eq_getElem hk)

theorem mapsTo_draw {entries : List α} (hnodup : entries.Nodup) (n : Nat) :
    Set.MapsTo (draw entries) (offsetsFor entries.length n) (rowsOf entries n) := by
  intro offsets h
  rcases draw_subperm entries offsets with ⟨row, hperm, hsub⟩
  exact ⟨length_draw_of_mem h, hperm.nodup_iff.1 (hsub.nodup hnodup),
    (draw_subperm entries offsets).subset⟩

-- The first entry tells the first offset, and what is then left tells the others.
theorem injOn_draw {entries : List α} (hnodup : entries.Nodup) (n : Nat) :
    Set.InjOn (draw entries) (offsetsFor entries.length n) := by
  intro offsets h offsets' h' heq
  induction n generalizing entries offsets offsets' with
  | zero => rw [List.length_eq_zero_iff.1 h.1, List.length_eq_zero_iff.1 h'.1]
  | succ n ih =>
    obtain ⟨offset, offsets, rfl⟩ := List.exists_cons_of_length_eq_add_one h.1
    obtain ⟨offset', offsets', rfl⟩ := List.exists_cons_of_length_eq_add_one h'.1
    rcases cons_mem_offsetsFor.1 h with ⟨hlt, hrest⟩
    rcases cons_mem_offsetsFor.1 h' with ⟨hlt', hrest'⟩
    rcases exists_swapped (List.getElem?_eq_getElem hlt) with ⟨left, hswapped, hperm, hleft, hdraw⟩
    rcases exists_swapped (List.getElem?_eq_getElem hlt') with ⟨left', hswapped', -, -, hdraw'⟩
    rw [hdraw, hdraw', List.cons.injEq] at heq
    obtain rfl : offset = offset' := hnodup.getElem_inj_iff.1 heq.1
    obtain rfl : left = left' := by
      rw [hswapped, List.cons.injEq] at hswapped'
      exact hswapped'.2
    have hnodupLeft : left.Nodup := (List.nodup_cons.1 (hperm.nodup_iff.2 hnodup)).2
    rw [← hleft] at hrest hrest'
    rw [ih hnodupLeft hrest hrest' heq.2]

-- The offset of the first entry is where it stands; the others are drawn from what is then left.
theorem surjOn_draw {entries : List α} (hnodup : entries.Nodup) (n : Nat) :
    Set.SurjOn (draw entries) (offsetsFor entries.length n) (rowsOf entries n) := by
  intro row hrow
  induction n generalizing entries row with
  | zero =>
    rw [List.length_eq_zero_iff.1 hrow.1]
    exact ⟨[], ⟨rfl, fun _ _ h => nomatch h⟩, draw_nil entries⟩
  | succ n ih =>
    obtain ⟨entry, row, rfl⟩ := List.exists_cons_of_length_eq_add_one hrow.1
    rcases mem_rowsOf.1 hrow with ⟨hlength, hrowNodup, hsub⟩
    rcases List.getElem?_of_mem (hsub List.mem_cons_self) with ⟨offset, hentry⟩
    rcases exists_swapped hentry with ⟨left, -, hperm, hleft, hdraw⟩
    have hnodupLeft : left.Nodup := (List.nodup_cons.1 (hperm.nodup_iff.2 hnodup)).2
    have hsubLeft : row ⊆ left := by
      intro a ha
      rcases List.mem_cons.1 (hperm.mem_iff.2 (hsub (List.mem_cons_of_mem entry ha))) with rfl | hmem
      · exact absurd ha (List.nodup_cons.1 hrowNodup).1
      · exact hmem
    rcases ih hnodupLeft ⟨Nat.succ.inj hlength, (List.nodup_cons.1 hrowNodup).2, hsubLeft⟩ with
      ⟨offsets, hoffsets, rfl⟩
    rw [hleft] at hoffsets
    have hlt : offset < entries.length := (List.getElem?_eq_some_iff.1 hentry).1
    exact ⟨offset :: offsets, cons_mem_offsetsFor.2 ⟨hlt, hoffsets⟩, hdraw offsets⟩

theorem bijOn_draw {entries : List α} (hnodup : entries.Nodup) (n : Nat) :
    Set.BijOn (draw entries) (offsetsFor entries.length n) (rowsOf entries n) :=
  ⟨mapsTo_draw hnodup n, injOn_draw hnodup n, surjOn_draw hnodup n⟩

/-! ## Counting -/

theorem offsetsFor_succ (m n : Nat) :
    offsetsFor m (n + 1) =
      (fun p : Nat × List Nat => p.1 :: p.2) '' (Set.Iio m ×ˢ offsetsFor (m - 1) n) := by
  ext offsets
  constructor
  · intro h
    obtain ⟨offset, offsets, rfl⟩ := List.exists_cons_of_length_eq_add_one h.1
    exact ⟨(offset, offsets), cons_mem_offsetsFor.1 h, rfl⟩
  · rintro ⟨⟨offset, offsets⟩, h, rfl⟩
    exact cons_mem_offsetsFor.2 h

theorem ncard_offsetsFor (m n : Nat) : (offsetsFor m n).ncard = m.descFactorial n := by
  induction n generalizing m with
  | zero =>
    have hnil : offsetsFor m 0 = {[]} := by
      ext offsets
      exact ⟨fun h => List.length_eq_zero_iff.1 h.1, fun h => h ▸ ⟨rfl, fun _ _ h => nomatch h⟩⟩
    rw [hnil, Set.ncard_singleton, Nat.descFactorial_zero]
  | succ n ih =>
    have hinj : Function.Injective fun p : Nat × List Nat => p.1 :: p.2 := by
      rintro ⟨a, as⟩ ⟨b, bs⟩ h
      injection h with h hs
      exact Prod.ext h hs
    rw [offsetsFor_succ, Set.ncard_image_of_injective _ hinj, Set.ncard_prod, ih, Set.ncard_Iio_nat]
    cases m with
    | zero => rw [Nat.zero_mul, Nat.zero_descFactorial_succ]
    | succ m => rw [Nat.add_sub_cancel, Nat.succ_descFactorial_succ]

/-- The offsets that draw a set of as many entries as there are draws, in whatever order. -/
theorem ncard_drawing {entries : List α} (hnodup : entries.Nodup) {chosen : Finset α}
    (hsub : ∀ a ∈ chosen, a ∈ entries) :
    {offsets ∈ offsetsFor entries.length chosen.card |
      ∀ a, a ∈ draw entries offsets ↔ a ∈ chosen}.ncard = factorial chosen.card := by
  classical
  -- These offsets draw the set in all its orders, each order once.
  have himage : draw entries '' {offsets ∈ offsetsFor entries.length chosen.card |
      ∀ a, a ∈ draw entries offsets ↔ a ∈ chosen} = ↑chosen.toList.permutations.toFinset := by
    ext row
    rw [Finset.mem_coe, List.mem_toFinset, List.mem_permutations]
    constructor
    · rintro ⟨offsets, ⟨hoffsets, hmem⟩, rfl⟩
      have hrow := mapsTo_draw hnodup _ hoffsets
      apply (List.perm_ext_iff_of_nodup hrow.2.1 chosen.nodup_toList).2
      intro a
      rw [hmem, Finset.mem_toList]
    · intro hperm
      have hmem : ∀ a, a ∈ row ↔ a ∈ chosen := by
        intro a
        rw [hperm.mem_iff, Finset.mem_toList]
      have hrow : row ∈ rowsOf entries chosen.card := by
        refine ⟨?_, hperm.nodup_iff.2 chosen.nodup_toList, fun a ha => hsub a ((hmem a).1 ha)⟩
        rw [hperm.length_eq, Finset.length_toList]
      rcases surjOn_draw hnodup _ hrow with ⟨offsets, hoffsets, rfl⟩
      exact ⟨offsets, ⟨hoffsets, hmem⟩, rfl⟩
  have hinj := (injOn_draw hnodup chosen.card).mono (Set.sep_subset _ fun offsets =>
    ∀ a, a ∈ draw entries offsets ↔ a ∈ chosen)
  rw [← hinj.ncard_image, himage, Set.ncard_coe_finset,
    List.toFinset_card_of_nodup (List.nodup_permutations _ chosen.nodup_toList),
    List.length_permutations, Finset.length_toList]

/-- What drawing `n` entries of a list comes to. -/
structure DrawsFairly (entries : List α) (n : Nat) : Prop where
  -- The draws are what a shuffle in place moves to the front.
  take_shuffle : ∀ offsets ∈ offsetsFor entries.length n,
    (shuffle 0 entries offsets).take n = draw entries offsets
  -- The offsets and the rows of different entries correspond one to one.
  bijOn : Set.BijOn (draw entries) (offsetsFor entries.length n) (rowsOf entries n)
  -- Of so many offsets,
  ncard_offsetsFor : (offsetsFor entries.length n).ncard = entries.length.descFactorial n
  -- equally many draw each set of `n` entries.
  ncard_drawing : ∀ chosen : Finset α, (∀ a ∈ chosen, a ∈ entries) → chosen.card = n →
    {offsets ∈ offsetsFor entries.length n | ∀ a, a ∈ draw entries offsets ↔ a ∈ chosen}.ncard =
      factorial n

theorem drawsFairly {entries : List α} (hnodup : entries.Nodup) (n : Nat) :
    DrawsFairly entries n where
  take_shuffle := by
    intro offsets h
    rcases exists_shuffle_eq [] h with ⟨others, hothers⟩
    rw [List.nil_append, List.nil_append, List.length_nil] at hothers
    rw [hothers, List.take_left' (length_draw_of_mem h)]
  bijOn := bijOn_draw hnodup n
  ncard_offsetsFor := ncard_offsetsFor entries.length n
  ncard_drawing := by
    rintro chosen hsub rfl
    exact FinalityBridge.ncard_drawing hnodup hsub

end Draw

namespace Bitfield

theorem drawOffsets_mem (seed : Hash) {m n : Nat} (hn : n ≤ m) :
    drawOffsets seed m n ∈ offsetsFor m n := by
  refine ⟨length_drawOffsets seed m n, ?_⟩
  intro k offset h
  have hlt := lt_of_getElem?_drawOffsets hn h
  omega

theorem challenge_eq_sampleBy (seed : Hash) {claimed : Bitfield} {n : Nat} (hn : n ≤ claimed.count) :
    challenge seed claimed n = claimed.sampleBy (drawOffsets seed claimed.count n) := by
  rw [challenge, length_ones, Nat.min_eq_right hn]
  rfl

-- A sample is given by its positions, in whatever order they are drawn.
theorem sampleBy_eq_iff {claimed target : Bitfield} (hlen : target.len = claimed.len)
    (offsets : List Nat) :
    claimed.sampleBy offsets = target ↔
      ∀ p, p ∈ draw claimed.ones offsets ↔ p ∈ target.ones := by
  simp only [← mem_ones_sampleBy]
  constructor
  · rintro rfl p
    exact Iff.rfl
  · intro h
    apply eq_of_contains ((len_sampleBy claimed offsets).trans hlen.symm)
    intro p
    rw [Bool.eq_iff_iff, ← mem_ones, ← mem_ones, h]

/-- What a challenge for `n` of the claimed positions may be. -/
structure SamplesFairly (claimed : Bitfield) (n : Nat) : Prop where
  -- Every seed gives offsets that the draws may take,
  drawOffsets_mem : ∀ seed, drawOffsets seed claimed.count n ∈ offsetsFor claimed.count n
  challenge_eq : ∀ seed,
    challenge seed claimed n = claimed.sampleBy (drawOffsets seed claimed.count n)
  -- and equally many of these select each set of `n` claimed positions.
  ncard_selecting : ∀ target : Bitfield, target.len = claimed.len →
    target.isSubsetOf claimed = true → target.count = n →
      {offsets ∈ offsetsFor claimed.count n | claimed.sampleBy offsets = target}.ncard = factorial n

theorem samplesFairly {claimed : Bitfield} {n : Nat} (hn : n ≤ claimed.count) :
    claimed.SamplesFairly n where
  drawOffsets_mem := fun seed => Bitfield.drawOffsets_mem seed hn
  challenge_eq := fun seed => challenge_eq_sampleBy seed hn
  ncard_selecting := by
    intro target hlen hsub hcount
    have hmem : ∀ p ∈ target.ones.toFinset, p ∈ claimed.ones := by
      intro p hp
      rw [List.mem_toFinset, mem_ones] at hp
      exact mem_ones.2 (isSubsetOf_iff.1 hsub p hp)
    have hcard : target.ones.toFinset.card = n := by
      rw [List.toFinset_card_of_nodup target.nodup_ones, length_ones, hcount]
    have hdrawing := (drawsFairly claimed.nodup_ones n).ncard_drawing _ hmem hcard
    simpa only [sampleBy_eq_iff hlen, length_ones, List.mem_toFinset] using hdrawing

end Bitfield

/-- Offsets that are picked evenly draw evenly: every row and every set of different entries of a list,
and every sample of a claim. -/
theorem draws_fairly :
    (∀ {α : Type} (entries : List α) (n : Nat), entries.Nodup → DrawsFairly entries n) ∧
    ∀ (claimed : Bitfield) (n : Nat), n ≤ claimed.count → claimed.SamplesFairly n :=
  ⟨fun _ n hnodup => drawsFairly hnodup n, fun _ _ hn => Bitfield.samplesFairly hn⟩

-- Three of five entries that are not in order, and of as many positions in two words.
theorem draws_three_of_five_fairly :
    let entries := [7, 64, 0, 69, 3]
    let claimed := entries.foldl Bitfield.insert (Bitfield.empty 70)
    (entries.Nodup ∧ DrawsFairly entries 3) ∧ 3 ≤ claimed.count ∧ claimed.SamplesFairly 3 := by
  intro entries claimed
  have hnodup : entries.Nodup := by decide
  have hcount : 3 ≤ claimed.count := by decide
  exact ⟨⟨hnodup, draws_fairly.1 entries 3 hnodup⟩, hcount, draws_fairly.2 claimed 3 hcount⟩

end FinalityBridge
