import Mathlib.Data.Finset.Sort
import FinalityBridge.Proofs.Bitfield.Sample
import FinalityBridge.Proofs.Scale.Records

/-!
# Bitfields as finite sets

A bitfield is a finite set of positions below its length and nothing more: all views of it show that
set, and everything that makes or compares bitfields is an operation on such sets. Main statement:
`finite_sets`.
-/

namespace FinalityBridge.Bitfield

/-- The positions whose bit is set. -/
def toFinset (b : Bitfield) : Finset Nat :=
  (Finset.range b.len.toNat).filter fun p => bit b.words p = true

variable {a b : Bitfield} {p : Nat} {len position : UInt32}

/-! ## Membership -/

theorem mem_toFinset : p ∈ b.toFinset ↔ bit b.words p = true := by
  rw [toFinset, Finset.mem_filter, Finset.mem_range, and_iff_right_iff_imp]
  intro h
  apply Nat.lt_of_not_le
  intro hle
  rw [b.bit_eq_false p hle] at h
  cases h

theorem lt_len_of_mem_toFinset (h : p ∈ b.toFinset) : p < b.len.toNat := by
  rw [toFinset, Finset.mem_filter, Finset.mem_range] at h
  exact h.1

theorem toNat_mem_toFinset : position.toNat ∈ b.toFinset ↔ b.contains position = true := mem_toFinset

-- Every position of a set is one that can be asked for.
theorem exists_toNat_of_mem_toFinset (h : p ∈ b.toFinset) :
    ∃ position : UInt32, position.toNat = p := by
  have hlt := lt_len_of_mem_toFinset h
  exact ⟨UInt32.ofNat p, UInt32.toNat_ofNat_of_lt' (Nat.lt_trans hlt b.len.toNat_lt)⟩

theorem eq_iff_toFinset : a = b ↔ a.len = b.len ∧ a.toFinset = b.toFinset := by
  constructor
  · rintro rfl
    exact ⟨rfl, rfl⟩
  · rintro ⟨hlen, hset⟩
    apply eq_of_contains hlen
    intro position
    rw [Bool.eq_iff_iff, ← toNat_mem_toFinset, ← toNat_mem_toFinset, hset]

theorem isSubsetOf_iff_toFinset : a.isSubsetOf b = true ↔ a.toFinset ⊆ b.toFinset := by
  rw [isSubsetOf_iff_bit]
  constructor
  · intro h p hp
    exact mem_toFinset.2 (h p (mem_toFinset.1 hp))
  · intro h p hp
    exact mem_toFinset.1 (h (mem_toFinset.2 hp))

/-! ## Views -/

theorem toFinset_positions (b : Bitfield) :
    (positions b.words b.len.toNat).toFinset = b.toFinset := by
  ext p
  rw [List.mem_toFinset, mem_positions, toFinset, Finset.mem_filter, Finset.mem_range]

theorem nodup_positions (words : List UInt64) (n : Nat) : (positions words n).Nodup :=
  List.nodup_range.filter _

theorem sort_toFinset (b : Bitfield) : b.toFinset.sort = positions b.words b.len.toNat := by
  have hsorted : (positions b.words b.len.toNat).Pairwise (· ≤ ·) :=
    (List.pairwise_le_range).filter _
  rw [← toFinset_positions]
  exact (List.toFinset_sort _ (nodup_positions _ _)).2 hsorted

theorem map_toNat_map_ofNat {ps : List Nat} (h : ∀ p ∈ ps, p < 2 ^ 32) :
    (ps.map UInt32.ofNat).map UInt32.toNat = ps := by
  calc (ps.map UInt32.ofNat).map UInt32.toNat = ps.map (UInt32.toNat ∘ UInt32.ofNat) := List.map_map
    _ = ps.map id := List.map_congr_left fun p hp => UInt32.toNat_ofNat_of_lt' (h p hp)
    _ = ps := List.map_id ps

theorem map_toNat_ones (b : Bitfield) : b.ones.map UInt32.toNat = b.toFinset.sort := by
  rw [ones_eq, sort_toFinset]
  apply map_toNat_map_ofNat
  intro p hp
  exact Nat.lt_trans (mem_positions.1 hp).1 b.len.toNat_lt

theorem count_eq_card (b : Bitfield) : b.count = b.toFinset.card := by
  rw [count_eq, ← sort_toFinset, Finset.length_sort]

theorem toList_render (b : Bitfield) : b.render.toList =
    (List.range b.len.toNat).reverse.map fun p => if p ∈ b.toFinset then '1' else '0' := by
  rw [render, String.toList_ofList, toBits_eq, ← List.map_reverse, List.map_map]
  apply List.map_congr_left
  intro p _
  exact if_congr mem_toFinset.symm rfl rfl

/-- What it is for a bitfield to be a set of positions below its length. -/
structure Shows (b : Bitfield) (s : Finset Nat) : Prop where
  -- There are as many words as the length needs, so that every position below it has its word,
  length_words : b.words.length = (b.len.toNat + 63) / 64
  word_lt : ∀ p < b.len.toNat, p / 64 < b.words.length
  -- and no bit is set beyond.
  lt_len : ∀ p ∈ s, p < b.len.toNat
  bit_iff : ∀ p, bit b.words p = true ↔ p ∈ s
  -- Testing, listing, counting and writing out show the same set.
  contains_iff : ∀ position, b.contains position = true ↔ position.toNat ∈ s
  ones_eq : b.ones.map UInt32.toNat = s.sort
  count_eq : b.count = s.card
  render_eq : b.render.toList =
    (List.range b.len.toNat).reverse.map fun p => if p ∈ s then '1' else '0'

theorem shows_toFinset (b : Bitfield) : b.Shows b.toFinset where
  length_words := b.length_words
  word_lt p hp := by
    have := b.length_words_mul
    omega
  lt_len _ := lt_len_of_mem_toFinset
  bit_iff _ := mem_toFinset.symm
  contains_iff _ := toNat_mem_toFinset.symm
  ones_eq := b.map_toNat_ones
  count_eq := b.count_eq_card
  render_eq := b.toList_render

/-! ## Making sets -/

theorem toFinset_empty (len : UInt32) : (empty len).toFinset = ∅ := by
  rw [Finset.eq_empty_iff_forall_notMem]
  intro p hp
  obtain ⟨position, rfl⟩ := exists_toNat_of_mem_toFinset hp
  rw [toNat_mem_toFinset, contains_empty] at hp
  cases hp

theorem bit_eq_true_iff {words : List UInt64} :
    bit words p = true ↔
      ∃ word, words[p / 64]? = some word ∧ word.toNat.testBit (p % 64) = true := by
  rw [bit, List.getD_eq_getElem?_getD]
  cases words[p / 64]? with
  | none => simp
  | some word => simp

theorem mem_toFinset_of_ofWords {words : List UInt64} (h : ofWords words len = .ok b) :
    p ∈ b.toFinset ↔ p < len.toNat ∧
      ∃ word, words[p / 64]? = some word ∧ word.toNat.testBit (p % 64) = true := by
  rw [mem_toFinset, (ofWords_spec h).2, ← bit_eq_true_iff, Bool.and_eq_true, decide_eq_true_eq,
    and_comm]

/-! ## Adding positions -/

theorem insert_of_le (h : b.len ≤ position) : b.insert position = b :=
  dif_neg (UInt32.not_lt.2 h)

theorem toFinset_insert (b : Bitfield) (position : UInt32) :
    (b.insert position).toFinset =
      if position < b.len then Insert.insert position.toNat b.toFinset else b.toFinset := by
  by_cases h : position < b.len
  · rw [if_pos h]
    ext p
    have hword : position.toNat / 64 < b.words.length := by
      have := b.length_words_mul
      have := UInt32.lt_iff_toNat_lt.1 h
      omega
    rw [mem_toFinset, insert, dif_pos h, bit_modify_single hword, Bool.or_eq_true,
      decide_eq_true_eq, Finset.mem_insert, mem_toFinset, or_comm]
  · rw [if_neg h, insert_of_le (UInt32.not_lt.1 h)]

/-- Adding positions one after the other adds those below the length. -/
theorem toFinset_foldl_insert (b : Bitfield) (added : List UInt32) :
    (added.foldl insert b).toFinset =
      b.toFinset ∪ ((added.filter (· < b.len)).map UInt32.toNat).toFinset := by
  induction added generalizing b with
  | nil => simp
  | cons position added ih =>
    rw [List.foldl_cons, ih, len_insert, toFinset_insert]
    by_cases h : position < b.len
    · rw [if_pos h, List.filter_cons_of_pos (by simpa using h), List.map_cons, List.toFinset_cons,
        Finset.insert_union, Finset.union_insert]
    · rw [if_neg h, List.filter_cons_of_neg (by simpa using h)]

/-! ## Listed positions -/

theorem toFinset_foldl_insert_empty {listed : List UInt32} (hlt : ∀ p ∈ listed, p < len) :
    (listed.foldl insert (empty len)).toFinset = (listed.map UInt32.toNat).toFinset := by
  have hall : listed.filter (· < (empty len).len) = listed := by
    rw [List.filter_eq_self]
    intro p hp
    exact decide_eq_true (hlt p hp)
  rw [toFinset_foldl_insert, toFinset_empty, Finset.empty_union, hall]

theorem ofPositions_eq_ok_iff_toFinset {listed : List UInt32} :
    ofPositions listed len = .ok b ↔
      b.len = len ∧ b.toFinset = (listed.map UInt32.toNat).toFinset := by
  constructor
  · intro h
    have hlt := lt_of_ofPositions h
    rw [ofPositions_of_lt hlt] at h
    cases h
    exact ⟨len_foldl_insert _ _, toFinset_foldl_insert_empty hlt⟩
  · rintro ⟨rfl, hset⟩
    have hlt : ∀ p ∈ listed, p < b.len := by
      intro p hp
      rw [UInt32.lt_iff_toNat_lt]
      apply lt_len_of_mem_toFinset
      rw [hset, List.mem_toFinset]
      exact List.mem_map_of_mem hp
    rw [ofPositions_of_lt hlt, Except.ok.injEq, eq_iff_toFinset, toFinset_foldl_insert_empty hlt, hset]
    exact ⟨len_foldl_insert _ _, rfl⟩

theorem ofPositions_ones (b : Bitfield) : ofPositions b.ones b.len = .ok b := by
  rw [ofPositions_eq_ok_iff_toFinset, map_toNat_ones, Finset.sort_toFinset]
  exact ⟨rfl, rfl⟩

theorem toFinset_challenge (seed : Hash) (claimed : Bitfield) (size : Nat) :
    (challenge seed claimed size).toFinset =
      ((drawn seed claimed size).map UInt32.toNat).toFinset := by
  apply toFinset_foldl_insert_empty
  intro p hp
  have hclaimed := mem_ones.1 ((drawn_subperm seed claimed size).subset hp)
  exact UInt32.lt_iff_toNat_lt.2 (lt_of_contains hclaimed)

-- Every set of positions below a length is that of a bitfield, and of one only.
theorem existsUnique_toFinset {s : Finset Nat} (h : ∀ p ∈ s, p < len.toNat) :
    ∃! b : Bitfield, b.len = len ∧ b.toFinset = s := by
  have hback : ∀ p ∈ s, (UInt32.ofNat p).toNat = p := by
    intro p hp
    exact UInt32.toNat_ofNat_of_lt' (Nat.lt_trans (h p hp) len.toNat_lt)
  have hlt : ∀ position ∈ s.toList.map UInt32.ofNat, position < len := by
    intro position hposition
    obtain ⟨p, hp, rfl⟩ := List.mem_map.1 hposition
    rw [UInt32.lt_iff_toNat_lt, hback p (Finset.mem_toList.1 hp)]
    exact h p (Finset.mem_toList.1 hp)
  obtain ⟨b, hb⟩ := exists_ofPositions_iff.2 hlt
  obtain ⟨hlen, hset⟩ := ofPositions_eq_ok_iff_toFinset.1 hb
  have hlisted : (s.toList.map UInt32.ofNat).map UInt32.toNat = s.toList := by
    apply map_toNat_map_ofNat
    intro p hp
    exact Nat.lt_trans (h p (Finset.mem_toList.1 hp)) len.toNat_lt
  rw [hlisted, Finset.toList_toFinset] at hset
  refine ⟨b, ⟨hlen, hset⟩, fun other hother => ?_⟩
  rw [eq_iff_toFinset, hother.1, hother.2, hlen, hset]
  exact ⟨rfl, rfl⟩

/-! ## Written forms -/

theorem decode_eq_ok_iff {bytes rest : Bytes} :
    codec.decode bytes = .ok (b, rest) ↔
      (Scale.Codec.words.pair Scale.Codec.uint32).decode bytes = .ok ((b.words, b.len), rest) := by
  have hpair := Scale.Codec.lawful_words.pair Scale.Codec.lawful_uint32
  constructor
  · intro h
    rw [(lawful_codec.eq_encode _ _ _ h).2, encode_eq]
    exact hpair.decode_encode (b.words, b.len) rest ⟨b.length_words_lt, trivial⟩
  · intro h
    rw [(hpair.eq_encode _ _ _ h).2, ← encode_eq]
    exact lawful_codec.decode_encode b rest trivial

/-! ## Bitfields and sets -/

/-- Bitfields are the finite sets of positions below their lengths. -/
structure FiniteSets : Prop where
  -- Whichever way a bitfield is made, its views show one set, which tells it from others of its length.
  shows_toFinset : ∀ b : Bitfield, b.Shows b.toFinset
  eq_iff : ∀ a b : Bitfield, a = b ↔ a.len = b.len ∧ a.toFinset = b.toFinset
  existsUnique : ∀ (len : UInt32) (s : Finset Nat), (∀ p ∈ s, p < len.toNat) →
    ∃! b : Bitfield, b.len = len ∧ b.toFinset = s
  -- Words that are too few stand for zeros, and bits beyond the length are ignored.
  toFinset_empty : ∀ len, (empty len).len = len ∧ (empty len).toFinset = ∅
  exists_ofWords : ∀ words len,
    (∃ b, ofWords words len = .ok b) ↔ words.length ≤ (len.toNat + 63) / 64
  mem_toFinset_ofWords : ∀ words len b, ofWords words len = .ok b → b.len = len ∧
    ∀ p, p ∈ b.toFinset ↔ p < len.toNat ∧
      ∃ word, words[p / 64]? = some word ∧ word.toNat.testBit (p % 64) = true
  exists_ofPositions : ∀ listed len,
    (∃ b, ofPositions listed len = .ok b) ↔ ∀ p ∈ listed, p < len
  ofPositions_iff : ∀ listed len b, ofPositions listed len = .ok b ↔
    b.len = len ∧ b.toFinset = (listed.map UInt32.toNat).toFinset
  -- What is read is just what was written.
  decode_iff : ∀ bytes b rest, codec.decode bytes = .ok (b, rest) ↔
    (Scale.Codec.words.pair Scale.Codec.uint32).decode bytes = .ok ((b.words, b.len), rest)
  toFinset_challenge : ∀ seed claimed size, (challenge seed claimed size).len = claimed.len ∧
    (challenge seed claimed size).toFinset = ((drawn seed claimed size).map UInt32.toNat).toFinset
  -- Positions at or beyond the length are not added.
  toFinset_insert : ∀ (b : Bitfield) (position : UInt32), (b.insert position).len = b.len ∧
    (b.insert position).toFinset =
      if position < b.len then Insert.insert position.toNat b.toFinset else b.toFinset
  insert_of_len_le : ∀ (b : Bitfield) (position : UInt32), b.len ≤ position → b.insert position = b
  toFinset_foldl_insert : ∀ (b : Bitfield) (added : List UInt32), (added.foldl insert b).len = b.len ∧
    (added.foldl insert b).toFinset =
      b.toFinset ∪ ((added.filter (· < b.len)).map UInt32.toNat).toFinset
  isSubsetOf_iff : ∀ a b : Bitfield, a.isSubsetOf b = true ↔ a.toFinset ⊆ b.toFinset
  -- A bitfield is made again from what it shows.
  ofPositions_ones : ∀ b : Bitfield, ofPositions b.ones b.len = .ok b
  ofWords_words : ∀ b : Bitfield, ofWords b.words b.len = .ok b

theorem finite_sets : FiniteSets where
  shows_toFinset := shows_toFinset
  eq_iff _ _ := eq_iff_toFinset
  existsUnique _ _ := existsUnique_toFinset
  toFinset_empty len := ⟨rfl, toFinset_empty len⟩
  exists_ofWords _ _ := exists_ofWords_iff
  mem_toFinset_ofWords _ _ _ h := ⟨(ofWords_spec h).1, fun _ => mem_toFinset_of_ofWords h⟩
  exists_ofPositions _ _ := exists_ofPositions_iff
  ofPositions_iff _ _ _ := ofPositions_eq_ok_iff_toFinset
  decode_iff _ _ _ := decode_eq_ok_iff
  toFinset_challenge seed claimed size :=
    ⟨len_challenge seed claimed size, toFinset_challenge seed claimed size⟩
  toFinset_insert b position := ⟨len_insert b position, toFinset_insert b position⟩
  insert_of_len_le _ _ := insert_of_le
  toFinset_foldl_insert b added := ⟨len_foldl_insert b added, toFinset_foldl_insert b added⟩
  isSubsetOf_iff _ _ := isSubsetOf_iff_toFinset
  ofPositions_ones := ofPositions_ones
  ofWords_words := ofWords_words

end FinalityBridge.Bitfield
