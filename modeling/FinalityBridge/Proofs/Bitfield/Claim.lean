import FinalityBridge.Proofs.Bitfield.Sample

/-!
# Two thirds

A claim is taken exactly if its words fit the number of validators and it names more than two thirds of
them, in exact integers. The same numbers come out in words of 32 and 64 bits, where none of them is
cut, whatever the number of validators. Main statement: `takes_two_thirds`.
-/

namespace FinalityBridge

/-! ## Numbers in machine words -/

/-- The quorum, computed in 64 bits and cut to 32. -/
def quorumWord (validators : UInt32) : UInt32 := (2 * validators.toUInt64 / 3 + 1).toUInt32

/-- The size of a sample, computed in 64 bits and cut to 32. -/
def sampleSizeWord (validators : UInt32) : UInt32 := ((validators.toUInt64 + 2) / 3 + 1).toUInt32

theorem toNat_quorumWord (validators : UInt32) : (quorumWord validators).toNat = quorum validators := by
  have hlt := validators.toNat_lt
  have hdouble : (2 * validators.toUInt64).toNat = 2 * validators.toNat := by
    rw [UInt64.toNat_mul, UInt32.toNat_toUInt64]
    exact Nat.mod_eq_of_lt (show 2 * validators.toNat < 2 ^ 64 by omega)
  unfold quorumWord quorum
  rw [UInt64.toNat_toUInt32, UInt64.toNat_add, UInt64.toNat_div, hdouble]
  simp only [UInt64.reduceToNat]
  omega

theorem toNat_sampleSizeWord (validators : UInt32) :
    (sampleSizeWord validators).toNat = sampleSize validators := by
  have hlt := validators.toNat_lt
  unfold sampleSizeWord sampleSize
  rw [UInt64.toNat_toUInt32, UInt64.toNat_add, UInt64.toNat_div, UInt64.toNat_add,
    UInt32.toNat_toUInt64]
  simp only [UInt64.reduceToNat]
  omega

theorem quorum_le {validators : UInt32} (h : 1 ≤ validators.toNat) :
    quorum validators ≤ validators.toNat := by
  unfold quorum
  omega

-- A number of validators falls short of the quorum exactly if it is at most two thirds.
theorem lt_quorum_iff {validators : UInt32} {n : Nat} :
    n < quorum validators ↔ 3 * n ≤ 2 * validators.toNat := by
  unfold quorum
  omega

namespace Bitfield

/-- The number of bits that are set in a word, in 32 bits. -/
def onesWord (word : UInt64) : UInt32 := UInt32.ofNat ((wordBits word).count true)

/-- The number of bits that are set in words, summed up in 32 bits. -/
def sumOnes (words : List UInt64) : UInt32 := words.foldl (fun sum word => sum + onesWord word) 0

theorem toNat_onesWord (word : UInt64) : (onesWord word).toNat = (wordBits word).count true := by
  have hle : (wordBits word).count true ≤ 64 := by
    have := List.count_le_length (a := true) (l := wordBits word)
    simpa [wordBits] using this
  exact UInt32.toNat_ofNat_of_lt' (Nat.lt_of_le_of_lt hle (by decide))

-- A sum of which the whole fits into 32 bits is exact.
theorem toNat_foldl_onesWord {words : List UInt64} {start : UInt32}
    (h : start.toNat + (words.flatMap wordBits).count true < UInt32.size) :
    (words.foldl (fun sum word => sum + onesWord word) start).toNat =
      start.toNat + (words.flatMap wordBits).count true := by
  induction words generalizing start with
  | nil => rfl
  | cons word words ih =>
    rw [List.flatMap_cons, List.count_append] at h ⊢
    have hword : (start + onesWord word).toNat = start.toNat + (wordBits word).count true := by
      rw [UInt32.toNat_add, toNat_onesWord]
      exact Nat.mod_eq_of_lt (show _ < UInt32.size by omega)
    rw [List.foldl_cons, ih (by omega), hword, Nat.add_assoc]

-- No sum on the way to the count of a bitfield is cut.
theorem toNat_sumOnes_take (b : Bitfield) (k : Nat) :
    (sumOnes (b.words.take k)).toNat = ((b.words.take k).flatMap wordBits).count true := by
  have hle : ((b.words.take k).flatMap wordBits).count true ≤ b.count := by
    rw [count]
    conv_rhs => rw [← List.take_append_drop k b.words, List.flatMap_append, List.count_append]
    exact Nat.le_add_right _ _
  have hlt : b.len.toNat < UInt32.size := b.len.toNat_lt
  have hcount := b.count_le
  have hsum := @toNat_foldl_onesWord (b.words.take k) 0 (by rw [UInt32.toNat_zero]; omega)
  rwa [UInt32.toNat_zero, Nat.zero_add] at hsum

theorem toNat_sumOnes (b : Bitfield) : (sumOnes b.words).toNat = b.count := by
  have h := b.toNat_sumOnes_take b.words.length
  rwa [List.take_length] at h

/-! ## Claims -/

variable {words : List UInt64} {validators : UInt32}

/-- The answer to a claim follows from the number of its words and the number of positions that it
names. -/
theorem ofClaim_eq (words : List UInt64) (validators : UInt32) :
    ofClaim words validators =
      if wordsFor validators.toNat < words.length then
        .error (.invalidBitfieldLength words.length (wordsFor validators.toNat) validators)
      else if 3 * (positions words validators.toNat).length ≤ 2 * validators.toNat then
        .error (.insufficientClaim (positions words validators.toNat).length (quorum validators))
      else ofWords words validators := by
  unfold ofClaim
  by_cases hexcess : wordsFor validators.toNat < words.length
  · rw [if_pos hexcess, ofWords, dif_neg (Nat.not_le.2 hexcess)]
    rfl
  · obtain ⟨b, hb⟩ := exists_ofWords (Nat.not_lt.1 hexcess)
    rw [if_neg hexcess, hb, ← count_of_ofWords hb]
    exact if_congr lt_quorum_iff rfl rfl

theorem exists_ofClaim_iff :
    (∃ b, ofClaim words validators = .ok b) ↔
      words.length ≤ wordsFor validators.toNat ∧
        2 * validators.toNat < 3 * (positions words validators.toNat).length := by
  rw [← exists_ofWords_iff, ← Nat.not_le, ← lt_quorum_iff, Nat.not_lt]
  constructor
  · rintro ⟨b, hb⟩
    obtain ⟨hwords, hquorum⟩ := ofClaim_eq_ok_iff.1 hb
    rw [count_of_ofWords hwords] at hquorum
    exact ⟨⟨b, hwords⟩, hquorum⟩
  · rintro ⟨hwords, hquorum⟩
    exact exists_ofClaim (exists_ofWords_iff.1 hwords) hquorum

theorem ofClaim_eq_error_iff {e : Error} :
    ofClaim words validators = .error e ↔
      (wordsFor validators.toNat < words.length ∧
        e = .invalidBitfieldLength words.length (wordsFor validators.toNat) validators) ∨
      (words.length ≤ wordsFor validators.toNat ∧
        3 * (positions words validators.toNat).length ≤ 2 * validators.toNat ∧
        e = .insufficientClaim (positions words validators.toNat).length (quorum validators)) := by
  rw [ofClaim_eq]
  by_cases hexcess : wordsFor validators.toNat < words.length
  · rw [if_pos hexcess]
    constructor
    · rintro ⟨⟩
      exact .inl ⟨hexcess, rfl⟩
    · rintro (⟨-, rfl⟩ | ⟨hfit, -⟩)
      · rfl
      · exact absurd hexcess (Nat.not_lt.2 hfit)
  have hfit := Nat.not_lt.1 hexcess
  rw [if_neg hexcess]
  by_cases hfew : 3 * (positions words validators.toNat).length ≤ 2 * validators.toNat
  · rw [if_pos hfew]
    constructor
    · rintro ⟨⟩
      exact .inr ⟨hfit, hfew, rfl⟩
    · rintro (⟨h, -⟩ | ⟨-, -, rfl⟩)
      · exact absurd h hexcess
      · rfl
  · obtain ⟨b, hb⟩ := exists_ofWords hfit
    rw [if_neg hfew, hb]
    constructor
    · rintro ⟨⟩
    · rintro (⟨h, -⟩ | ⟨-, h, -⟩)
      · exact absurd h hexcess
      · exact absurd h hfew

/-- What is answered to a claim over `validators` validators. -/
structure TakesTwoThirds (words : List UInt64) (validators : UInt32) : Prop where
  -- The claim is taken exactly if its words fit and it names more than two thirds of the validators,
  exists_ok_iff : (∃ b, ofClaim words validators = .ok b) ↔
    words.length ≤ wordsFor validators.toNat ∧
      2 * validators.toNat < 3 * (positions words validators.toNat).length
  -- and what is taken are the validators that it names.
  ones_eq : ∀ b, ofClaim words validators = .ok b →
    b.len = validators ∧ b.ones = (positions words validators.toNat).map UInt32.ofNat
  -- It fails for its words if there are too many of them, and otherwise for the validators that it
  -- does not name.
  eq_error_iff : ∀ e, ofClaim words validators = .error e ↔
    (wordsFor validators.toNat < words.length ∧
      e = .invalidBitfieldLength words.length (wordsFor validators.toNat) validators) ∨
    (words.length ≤ wordsFor validators.toNat ∧
      3 * (positions words validators.toNat).length ≤ 2 * validators.toNat ∧
      e = .insufficientClaim (positions words validators.toNat).length (quorum validators))
  -- The machine words hold the exact numbers, those on the way to the count included.
  toNat_quorumWord : (quorumWord validators).toNat = quorum validators
  toNat_sampleSizeWord : (sampleSizeWord validators).toNat = sampleSize validators
  toNat_sumOnes_take : ∀ b, ofWords words validators = .ok b → ∀ k,
    (sumOnes (b.words.take k)).toNat = ((b.words.take k).flatMap wordBits).count true
  toNat_sumOnes : ∀ b, ofWords words validators = .ok b →
    (sumOnes b.words).toNat = (positions words validators.toNat).length
  -- A quorum can be reached and is enough for a sample, but nobody can claim one of an empty set.
  quorum_le : 1 ≤ validators.toNat → quorum validators ≤ validators.toNat
  sampleSize_le_quorum : 2 ≤ validators.toNat → sampleSize validators ≤ quorum validators
  ne_ok_of_eq_zero : validators = 0 → ∀ b, ofClaim words validators ≠ .ok b

theorem ones_of_ofClaim {b : Bitfield} (h : ofClaim words validators = .ok b) :
    b.len = validators ∧ b.ones = (positions words validators.toNat).map UInt32.ofNat := by
  have hb := (ofClaim_eq_ok_iff.1 h).1
  have hlen := (ofWords_spec hb).1
  exact ⟨hlen, by rw [Bitfield.ones_eq, hlen, positions_ofWords hb]⟩

/-- A claim is taken exactly if its words fit and it names more than two thirds of the validators,
counted exactly whatever their number. -/
theorem takes_two_thirds (words : List UInt64) (validators : UInt32) :
    TakesTwoThirds words validators where
  exists_ok_iff := exists_ofClaim_iff
  ones_eq := fun _ h => ones_of_ofClaim h
  eq_error_iff := fun _ => ofClaim_eq_error_iff
  toNat_quorumWord := FinalityBridge.toNat_quorumWord validators
  toNat_sampleSizeWord := FinalityBridge.toNat_sampleSizeWord validators
  toNat_sumOnes_take := fun b _ => b.toNat_sumOnes_take
  toNat_sumOnes := fun b h => by rw [b.toNat_sumOnes, count_of_ofWords h]
  quorum_le := FinalityBridge.quorum_le
  sampleSize_le_quorum := FinalityBridge.sampleSize_le_quorum
  ne_ok_of_eq_zero := by
    rintro rfl b hb
    have hmany := (exists_ofClaim_iff.1 ⟨b, hb⟩).2
    have hle := length_positions_le words (0 : UInt32).toNat
    rw [UInt32.toNat_zero] at hmany hle
    omega

end Bitfield

end FinalityBridge
