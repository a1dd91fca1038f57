import FinalityBridge.Bitfield.Quorum

/-!
# The positions of a bitfield

Counting, listing and testing bits are three views of the same positions: those below the length
whose bit is set, in ascending order (`ones_eq`, `count_eq`, `mem_ones`). Comparing words compares
positions (`isSubsetOf_iff`).
-/

namespace FinalityBridge.Bitfield

/-! ## Bits of packed words -/

theorem bit_cons_of_lt (word : UInt64) (words : List UInt64) {p : Nat} (h : p < 64) :
    bit (word :: words) p = word.toNat.testBit p := by
  unfold bit
  rw [show p / 64 = 0 by omega, show p % 64 = p by omega]
  rfl

theorem bit_cons_add (word : UInt64) (words : List UInt64) (p : Nat) :
    bit (word :: words) (64 + p) = bit words p := by
  unfold bit
  rw [show (64 + p) / 64 = p / 64 + 1 by omega, show (64 + p) % 64 = p % 64 by omega]
  rfl

-- Unpacked one after the other, the words give bit after bit.
theorem flatMap_wordBits (words : List UInt64) :
    words.flatMap wordBits = (List.range (64 * words.length)).map (bit words) := by
  induction words with
  | nil => rfl
  | cons word words ih =>
    have hhead : wordBits word = (List.range 64).map (bit (word :: words)) := by
      unfold wordBits
      apply List.map_congr_left
      intro p hp
      exact (bit_cons_of_lt word words (List.mem_range.1 hp)).symm
    have htail : words.flatMap wordBits =
        ((List.range (64 * words.length)).map (64 + ·)).map (bit (word :: words)) := by
      rw [ih, List.map_map]
      apply List.map_congr_left
      intro p _
      exact (bit_cons_add word words p).symm
    rw [List.flatMap_cons, List.length_cons, show 64 * (words.length + 1) = 64 + 64 * words.length by
      omega, List.range_add, List.map_append, ← hhead, ← htail]

theorem bit_append_replicate_zero (words : List UInt64) (n p : Nat) :
    bit (words ++ List.replicate n 0) p = bit words p := by
  unfold bit
  rw [List.getD_eq_getElem?_getD, List.getD_eq_getElem?_getD]
  by_cases h : p / 64 < words.length
  · rw [List.getElem?_append_left h]
  · -- A word that is missing counts as zero, like one that is there and zero.
    have hmissing : words[p / 64]? = none := List.getElem?_eq_none (Nat.not_lt.1 h)
    rw [List.getElem?_append_right (Nat.not_lt.1 h), hmissing, List.getElem?_replicate]
    split <;> rfl

/-! ## Listing and counting -/

/-- The positions below a length whose bit is set, in ascending order. -/
def positions (words : List UInt64) (len : Nat) : List Nat := (List.range len).filter (bit words)

theorem mem_positions {words : List UInt64} {len p : Nat} :
    p ∈ positions words len ↔ p < len ∧ bit words p = true := by
  rw [positions, List.mem_filter, List.mem_range]

theorem length_positions_le (words : List UInt64) (len : Nat) :
    (positions words len).length ≤ len := by
  have h := List.length_filter_le (bit words) (List.range len)
  rwa [List.length_range] at h

theorem length_words_mul (b : Bitfield) : b.len.toNat ≤ 64 * b.words.length := by
  rw [b.length_words, wordsFor]
  omega

theorem toBits_eq (b : Bitfield) : b.toBits = (List.range b.len.toNat).map (bit b.words) := by
  have h := b.length_words_mul
  rw [toBits, flatMap_wordBits, ← List.map_take, List.take_range, Nat.min_eq_left h]

theorem ones_eq (b : Bitfield) :
    b.ones = (positions b.words b.len.toNat).map UInt32.ofNat := by
  rw [ones, toBits_eq, positions]
  induction b.len.toNat with
  | zero => rfl
  | succ n ih =>
    rw [List.range_succ, List.map_append, List.zipIdx_append, List.filterMap_append, ih,
      List.filter_append, List.map_append]
    congr 1
    cases h : bit b.words n with
    | false => simp [h]
    | true => simp [h]

theorem count_eq (b : Bitfield) : b.count = (positions b.words b.len.toNat).length := by
  -- The bits beyond the length are clear, so counting all bits counts those below it.
  have hsplit : List.range (64 * b.words.length) =
      List.range b.len.toNat ++ (List.range (64 * b.words.length - b.len.toNat)).map
        (b.len.toNat + ·) := by
    rw [← List.range_add, Nat.add_sub_cancel' b.length_words_mul]
  have hbeyond : ((List.range (64 * b.words.length - b.len.toNat)).map (b.len.toNat + ·)).filter
      (bit b.words) = [] := by
    rw [List.filter_eq_nil_iff]
    intro p hp
    rcases List.mem_map.1 hp with ⟨i, -, rfl⟩
    rw [b.bit_eq_false _ (Nat.le_add_right _ i)]
    decide
  rw [count, flatMap_wordBits, List.count, List.countP_map, List.countP_eq_length_filter]
  rw [show ((· == true) ∘ bit b.words) = bit b.words by funext p; simp, hsplit, List.filter_append,
    hbeyond, List.append_nil, positions]

theorem length_ones (b : Bitfield) : b.ones.length = b.count := by
  rw [ones_eq, List.length_map, count_eq]

theorem count_le (b : Bitfield) : b.count ≤ b.len.toNat := by
  rw [count_eq]
  exact length_positions_le _ _

-- A position in the set lies below the length.
theorem lt_of_contains {b : Bitfield} {position : UInt32} (h : b.contains position = true) :
    position.toNat < b.len.toNat := by
  apply Nat.lt_of_not_le
  intro hle
  rw [contains, b.bit_eq_false _ hle] at h
  cases h

theorem mem_ones {b : Bitfield} {position : UInt32} :
    position ∈ b.ones ↔ b.contains position = true := by
  rw [ones_eq, List.mem_map]
  constructor
  · rintro ⟨p, hp, rfl⟩
    have hlt := (mem_positions.1 hp).1
    have hlen : b.len.toNat < UInt32.size := b.len.toNat_lt
    rw [contains, UInt32.toNat_ofNat_of_lt' (by omega)]
    exact (mem_positions.1 hp).2
  · intro h
    exact ⟨position.toNat, mem_positions.2 ⟨lt_of_contains h, h⟩, UInt32.ofNat_toNat⟩

theorem ones_ascending (b : Bitfield) : b.ones.Pairwise (· < ·) := by
  rw [ones_eq, List.pairwise_map]
  apply List.Pairwise.imp_of_mem _ (List.pairwise_lt_range.filter (bit b.words))
  intro p q hp hq hlt
  have hp := (mem_positions.1 hp).1
  have hq := (mem_positions.1 hq).1
  have hlen : b.len.toNat < UInt32.size := b.len.toNat_lt
  rw [UInt32.lt_iff_toNat_lt, UInt32.toNat_ofNat_of_lt' (by omega),
    UInt32.toNat_ofNat_of_lt' (by omega)]
  exact hlt

theorem nodup_ones (b : Bitfield) : b.ones.Nodup := by
  apply b.ones_ascending.imp
  intro p q hlt heq
  rw [heq] at hlt
  exact UInt32.lt_irrefl q hlt

/-! ## Subsets -/

-- A word has no bit beyond its width.
theorem lt_of_testBit {word : UInt64} {k : Nat} (h : word.toNat.testBit k = true) : k < 64 := by
  apply Nat.lt_of_not_le
  intro hle
  have hpow : 2 ^ 64 ≤ 2 ^ k := Nat.pow_le_pow_right (by decide) hle
  rw [Nat.testBit_lt_two_pow (Nat.lt_of_lt_of_le word.toNat_lt hpow)] at h
  cases h

-- Nothing is left of a word without the bits of another exactly if all its bits are the other's.
theorem and_not_eq_zero_iff (v w : UInt64) :
    v &&& ~~~w = 0 ↔ ∀ k, v.toNat.testBit k = true → w.toNat.testBit k = true := by
  have hnot : ∀ k, (v &&& ~~~w).toNat.testBit k =
      (v.toNat.testBit k && (decide (k < 64) && !w.toNat.testBit k)) := by
    intro k
    rw [UInt64.toNat_and, Nat.testBit_and, UInt64.toNat_not,
      show UInt64.size - 1 - w.toNat = 2 ^ 64 - (w.toNat + 1) by rw [UInt64.size]; omega,
      Nat.testBit_two_pow_sub_succ w.toNat_lt]
  constructor
  · intro h k hk
    have hbit := hnot k
    rw [h, hk, decide_eq_true (lt_of_testBit hk)] at hbit
    simpa using hbit
  · intro h
    apply UInt64.toNat_inj.1
    apply Nat.eq_of_testBit_eq
    intro k
    rw [hnot]
    cases hk : v.toNat.testBit k with
    | false => simp
    | true => simp [h k hk]

theorem isSubsetOf_iff_words {a b : Bitfield} :
    a.isSubsetOf b = true ↔ ∀ i word, a.words[i]? = some word →
      ∀ k, word.toNat.testBit k = true → (b.words.getD i 0).toNat.testBit k = true := by
  rw [isSubsetOf, List.all_eq_true]
  simp only [Prod.forall, List.mem_zipIdx_iff_getElem?, beq_iff_eq, and_not_eq_zero_iff]
  exact forall_comm

theorem isSubsetOf_iff_bit {a b : Bitfield} :
    a.isSubsetOf b = true ↔ ∀ p, bit a.words p = true → bit b.words p = true := by
  rw [isSubsetOf_iff_words]
  constructor
  · intro h p hp
    rw [bit, List.getD_eq_getElem?_getD] at hp
    cases hword : a.words[p / 64]? with
    | none => simp [hword] at hp
    | some word =>
      rw [hword] at hp
      exact h (p / 64) word hword (p % 64) hp
  · intro h i word hword k hk
    have hlt := lt_of_testBit hk
    have hp := h (64 * i + k)
    unfold bit at hp
    rw [show (64 * i + k) / 64 = i by omega, show (64 * i + k) % 64 = k by omega,
      List.getD_eq_getElem?_getD, hword] at hp
    exact hp hk

/-- One bitfield is within another exactly if the other holds all its positions, whatever their
lengths. -/
theorem isSubsetOf_iff {a b : Bitfield} :
    a.isSubsetOf b = true ↔
      ∀ position, a.contains position = true → b.contains position = true := by
  rw [isSubsetOf_iff_bit]
  constructor
  · intro h position
    exact h position.toNat
  · intro h p hp
    have hlt : p < a.len.toNat := by
      apply Nat.lt_of_not_le
      intro hle
      rw [a.bit_eq_false p hle] at hp
      cases hp
    have hsize : p < UInt32.size := Nat.lt_trans hlt a.len.toNat_lt
    have hcontains := h (UInt32.ofNat p)
    unfold contains at hcontains
    rw [UInt32.toNat_ofNat_of_lt' hsize] at hcontains
    exact hcontains hp

/-! ## Equality -/

-- Words of the same number with the same bits are the same.
theorem eq_of_bit {v w : List UInt64} (hlength : v.length = w.length) (h : ∀ p, bit v p = bit w p) :
    v = w := by
  induction v generalizing w with
  | nil => exact (List.length_eq_zero_iff.1 hlength.symm).symm
  | cons word v ih =>
    cases w with
    | nil => cases hlength
    | cons other w =>
      have hword : word = other := by
        apply UInt64.toNat_inj.1
        apply Nat.eq_of_testBit_eq
        intro k
        by_cases hk : k < 64
        · rw [← bit_cons_of_lt word v hk, h, bit_cons_of_lt other w hk]
        · rw [Bool.eq_false_iff.2 (mt lt_of_testBit hk),
            Bool.eq_false_iff.2 (mt lt_of_testBit hk)]
      have hrest : v = w := by
        apply ih (Nat.succ.inj hlength)
        intro p
        rw [← bit_cons_add word v p, h, bit_cons_add other w p]
      rw [hword, hrest]

/-- Bitfields of the same length that hold the same positions are the same. -/
theorem eq_of_contains {a b : Bitfield} (hlen : a.len = b.len)
    (h : ∀ position, a.contains position = b.contains position) : a = b := by
  have hwords : a.words = b.words := by
    apply eq_of_bit
    · rw [a.length_words, b.length_words, hlen]
    · intro p
      by_cases hp : p < a.len.toNat
      · have hsize : p < UInt32.size := Nat.lt_trans hp a.len.toNat_lt
        have hcontains := h (UInt32.ofNat p)
        unfold contains at hcontains
        rwa [UInt32.toNat_ofNat_of_lt' hsize] at hcontains
      · have hlen' : b.len.toNat ≤ p := by
          rw [← hlen]
          exact Nat.not_lt.1 hp
        rw [a.bit_eq_false p (Nat.not_lt.1 hp), b.bit_eq_false p hlen']
  cases a
  cases b
  cases hlen
  cases hwords
  rfl

/-! ## Making bitfields -/

theorem contains_empty (len position : UInt32) : (empty len).contains position = false := by
  have h := bit_append_replicate_zero [] (wordsFor len.toNat) position.toNat
  rw [List.nil_append] at h
  rw [contains, empty, h]
  simp [bit]

theorem len_insert (b : Bitfield) (position : UInt32) : (b.insert position).len = b.len := by
  unfold insert
  split <;> rfl

theorem contains_insert (b : Bitfield) {position : UInt32} (h : position < b.len) (q : UInt32) :
    (b.insert position).contains q = (b.contains q || decide (q = position)) := by
  have hlt : position.toNat < b.len.toNat := UInt32.lt_iff_toNat_lt.1 h
  have hword : position.toNat / 64 < b.words.length := by
    have := b.length_words_mul
    omega
  rw [contains, insert, dif_pos h, bit_modify_single hword, contains]
  congr 1
  rw [decide_eq_decide]
  exact UInt32.toNat_inj

theorem len_foldl_insert (b : Bitfield) (added : List UInt32) :
    (added.foldl insert b).len = b.len := by
  induction added generalizing b with
  | nil => rfl
  | cons position added ih => rw [List.foldl_cons, ih, len_insert]

-- Adding positions one after the other adds just these.
theorem contains_foldl_insert {b : Bitfield} {added : List UInt32} (h : ∀ p ∈ added, p < b.len)
    (q : UInt32) : (added.foldl insert b).contains q = (b.contains q || decide (q ∈ added)) := by
  induction added generalizing b with
  | nil => simp
  | cons position added ih =>
    have hrest : ∀ p ∈ added, p < (b.insert position).len := by
      intro p hp
      rw [len_insert]
      exact h p (List.mem_cons_of_mem position hp)
    rw [List.foldl_cons, ih hrest, contains_insert b (h position List.mem_cons_self), Bool.or_assoc]
    simp [List.mem_cons, Bool.decide_or]

section Listed

variable {listed : List UInt32} {len : UInt32} {b : Bitfield}

theorem lt_of_ofPositions (h : ofPositions listed len = .ok b) : ∀ p ∈ listed, p < len := by
  unfold ofPositions at h
  split at h
  · cases h
  · rename_i hfind
    intro p hp
    have hle := List.find?_eq_none.1 hfind p hp
    rw [decide_eq_true_eq] at hle
    exact UInt32.not_le.1 hle

theorem ofPositions_of_lt (hlt : ∀ p ∈ listed, p < len) :
    ofPositions listed len = .ok (listed.foldl insert (empty len)) := by
  have hfind : listed.find? (fun p => decide (len ≤ p)) = none := by
    rw [List.find?_eq_none]
    intro p hp
    rw [decide_eq_true_eq]
    exact UInt32.not_le.2 (hlt p hp)
  rw [ofPositions, hfind]

theorem exists_ofPositions_iff : (∃ b, ofPositions listed len = .ok b) ↔ ∀ p ∈ listed, p < len := by
  constructor
  · rintro ⟨b, h⟩
    exact lt_of_ofPositions h
  · intro hlt
    exact ⟨_, ofPositions_of_lt hlt⟩

theorem contains_foldl_insert_empty (hlt : ∀ p ∈ listed, p < len) (p : UInt32) :
    (listed.foldl insert (empty len)).contains p = true ↔ p ∈ listed := by
  rw [contains_foldl_insert hlt, contains_empty, Bool.false_or, decide_eq_true_eq]

/-- A list of positions makes the bitfield that holds just these, in whatever order and however often
they are listed. -/
theorem ofPositions_eq_ok_iff :
    ofPositions listed len = .ok b ↔ b.len = len ∧ ∀ p, p ∈ listed ↔ b.contains p = true := by
  constructor
  · intro h
    have hlt := lt_of_ofPositions h
    rw [ofPositions_of_lt hlt] at h
    cases h
    exact ⟨len_foldl_insert (empty len) listed, fun p => (contains_foldl_insert_empty hlt p).symm⟩
  · rintro ⟨rfl, h⟩
    have hlt : ∀ p ∈ listed, p < b.len := fun p hp => lt_of_contains ((h p).1 hp)
    rw [ofPositions_of_lt hlt]
    congr 1
    apply eq_of_contains
    · exact len_foldl_insert (empty b.len) listed
    intro p
    rw [Bool.eq_iff_iff, contains_foldl_insert_empty hlt, h p]

end Listed

theorem exists_ofWords {words : List UInt64} {len : UInt32}
    (h : words.length ≤ wordsFor len.toNat) : ∃ b, ofWords words len = .ok b := by
  rw [ofWords, dif_pos h]
  exact ⟨_, rfl⟩

theorem exists_ofWords_iff {words : List UInt64} {len : UInt32} :
    (∃ b, ofWords words len = .ok b) ↔ words.length ≤ wordsFor len.toNat := by
  constructor
  · rintro ⟨b, h⟩
    unfold ofWords at h
    split at h
    · assumption
    · cases h
  · exact exists_ofWords

theorem ofWords_spec {words : List UInt64} {len : UInt32} {b : Bitfield}
    (h : ofWords words len = .ok b) :
    b.len = len ∧ ∀ p, bit b.words p = (bit words p && decide (p < len.toNat)) := by
  unfold ofWords at h
  split at h
  · injection h with h
    subst h
    refine ⟨rfl, fun p => ?_⟩
    rw [bit_mapIdx_liveMask, bit_append_replicate_zero]
  · cases h

-- The words of a bitfield make that bitfield.
theorem ofWords_words (b : Bitfield) : ofWords b.words b.len = .ok b := by
  obtain ⟨other, hother⟩ := exists_ofWords (Nat.le_of_eq b.length_words)
  obtain ⟨hlen, hbits⟩ := ofWords_spec hother
  have heq : other = b := by
    apply eq_of_contains hlen
    intro position
    unfold contains
    rw [hbits]
    by_cases hposition : position.toNat < b.len.toNat
    · rw [decide_eq_true hposition, Bool.and_true]
    · rw [b.bit_eq_false _ (Nat.not_lt.1 hposition), Bool.false_and]
  rw [hother, heq]

theorem positions_ofWords {words : List UInt64} {len : UInt32} {b : Bitfield}
    (h : ofWords words len = .ok b) : positions b.words len.toNat = positions words len.toNat := by
  unfold positions
  apply List.filter_congr
  intro p hp
  rw [(ofWords_spec h).2, decide_eq_true (List.mem_range.1 hp), Bool.and_true]

/-! ## Claims -/

section Claims

variable {words : List UInt64} {validators : UInt32} {b : Bitfield}

theorem count_of_ofWords (h : ofWords words validators = .ok b) :
    b.count = (positions words validators.toNat).length := by
  rw [count_eq, (ofWords_spec h).1, positions_ofWords h]

-- A claim is taken as the bitfield of its words, if enough bits are left of them.
theorem ofClaim_eq_ok_iff :
    ofClaim words validators = .ok b ↔
      ofWords words validators = .ok b ∧ quorum validators ≤ b.count := by
  unfold ofClaim
  cases hwords : ofWords words validators with
  | error e =>
    constructor
    · rintro ⟨⟩
    · rintro ⟨⟨⟩, -⟩
  | ok bitfield =>
    show (if bitfield.count < quorum validators then
      .error (.insufficientClaim bitfield.count (quorum validators)) else .ok bitfield) =
        Except.ok (ε := Error) b ↔ _
    by_cases hfew : bitfield.count < quorum validators
    · rw [if_pos hfew]
      constructor
      · rintro ⟨⟩
      · rintro ⟨⟨⟩, hquorum⟩
        exact absurd hfew (Nat.not_lt.2 hquorum)
    · rw [if_neg hfew]
      constructor
      · rintro ⟨⟩
        exact ⟨rfl, Nat.not_lt.1 hfew⟩
      · exact And.left

-- A claim is taken if its words fit and enough of their bits below the number of validators are
-- set.
theorem exists_ofClaim (hfit : words.length ≤ wordsFor validators.toNat)
    (hquorum : quorum validators ≤ (positions words validators.toNat).length) :
    ∃ b, ofClaim words validators = .ok b := by
  obtain ⟨b, hb⟩ := exists_ofWords hfit
  rw [← count_of_ofWords hb] at hquorum
  exact ⟨b, ofClaim_eq_ok_iff.2 ⟨hb, hquorum⟩⟩

theorem ofClaim_spec (h : ofClaim words validators = .ok b) :
    b.len = validators ∧ quorum validators ≤ b.count ∧
      ∀ p, b.contains p = (bit words p.toNat && decide (p < validators)) := by
  obtain ⟨hwords, hquorum⟩ := ofClaim_eq_ok_iff.1 h
  obtain ⟨hlen, hbits⟩ := ofWords_spec hwords
  refine ⟨hlen, hquorum, fun p => ?_⟩
  rw [contains, hbits]
  congr 1

end Claims

end FinalityBridge.Bitfield
