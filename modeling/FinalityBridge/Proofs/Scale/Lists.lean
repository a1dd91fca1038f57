import FinalityBridge.Proofs.Scale.Lawful

/-!
# Lengths and lists on the wire

A length has four written forms, told apart by the two low bits of the first byte, and only the
shortest that holds it is read (`lawful_length`). With that, a list is read back exactly from what it
is written as, if its items are (`Lawful.list`).
-/

namespace FinalityBridge.Scale.Codec

variable {α : Type} {c : Codec α} {P : α → Prop}

/-! ## Lengths -/

-- The low bits of a number stand in its first byte.
theorem mod_four_of_littleEndian {width n : Nat} {b : UInt8} {bytes rest : Bytes}
    (h : b :: bytes = Bytes.littleEndian (width + 1) n ++ rest) : b.toNat % 4 = n % 4 := by
  rw [Bytes.littleEndian, List.cons_append, List.cons.injEq] at h
  rw [h.1, UInt8.toNat_ofNat']
  omega

/-- Reads a length that stands above the two low bits of a number of `width` bytes, unless a shorter
form would hold it. -/
def decodeShifted (width least : Nat) (bytes : Bytes) : Reading Nat :=
  match (littleEndian width).decode bytes with
  | .error e => .error e
  | .ok (n, rest) => if least ≤ n / 4 then .ok (n / 4, rest) else .error .compactOutOfRange

/-- Reads a length of four bytes that needs more than 30 bits. -/
def decodeWide (bytes : Bytes) : Reading Nat :=
  match (littleEndian 4).decode bytes with
  | .error e => .error e
  | .ok (n, rest) => if 2 ^ 30 ≤ n then .ok (n, rest) else .error .compactOutOfRange

theorem decodeLength_cons (b : UInt8) (bytes : Bytes) :
    decodeLength (b :: bytes) =
      if b.toNat % 4 = 0 then decodeShifted 1 0 (b :: bytes)
      else if b.toNat % 4 = 1 then decodeShifted 2 (2 ^ 6) (b :: bytes)
      else if b.toNat % 4 = 2 then decodeShifted 4 (2 ^ 14) (b :: bytes)
      else if b.toNat = 3 then decodeWide bytes
      else .error .compactOutOfRange := rfl

-- The mark of a number that is read is that of its first byte.
theorem decodeShifted_cons_eq_ok_iff {width least n : Nat} {b : UInt8} {bytes rest : Bytes} :
    decodeShifted (width + 1) least (b :: bytes) = .ok (n, rest) ↔
      least ≤ n ∧ 4 * n + b.toNat % 4 < 256 ^ (width + 1) ∧
        b :: bytes = Bytes.littleEndian (width + 1) (4 * n + b.toNat % 4) ++ rest := by
  constructor
  · intro h
    unfold decodeShifted at h
    split at h
    · cases h
    · rename_i m back hdecode
      obtain ⟨hlt, hbytes⟩ := (lawful_littleEndian (width + 1)).eq_encode _ _ _ hdecode
      by_cases hleast : least ≤ m / 4
      · rw [if_pos hleast] at h
        cases h
        rw [mod_four_of_littleEndian hbytes, show 4 * (m / 4) + m % 4 = m by omega]
        exact ⟨hleast, hlt, hbytes⟩
      · rw [if_neg hleast] at h
        cases h
  · rintro ⟨hleast, hlt, hbytes⟩
    have hdecode := (lawful_littleEndian (width + 1)).decode_encode _ rest hlt
    change (littleEndian (width + 1)).decode (Bytes.littleEndian (width + 1) _ ++ rest) = _ at hdecode
    rw [decodeShifted, hbytes, hdecode]
    dsimp only
    rw [show (4 * n + b.toNat % 4) / 4 = n by omega, if_pos hleast]

theorem decodeWide_eq_ok_iff {n : Nat} {bytes rest : Bytes} :
    decodeWide bytes = .ok (n, rest) ↔
      2 ^ 30 ≤ n ∧ n < 256 ^ 4 ∧ bytes = Bytes.littleEndian 4 n ++ rest := by
  constructor
  · intro h
    unfold decodeWide at h
    split at h
    · cases h
    · rename_i m back hdecode
      obtain ⟨hlt, hbytes⟩ := (lawful_littleEndian 4).eq_encode _ _ _ hdecode
      by_cases hleast : 2 ^ 30 ≤ m
      · rw [if_pos hleast] at h
        cases h
        exact ⟨hleast, hlt, hbytes⟩
      · rw [if_neg hleast] at h
        cases h
  · rintro ⟨hleast, hlt, rfl⟩
    have hdecode := (lawful_littleEndian 4).decode_encode n rest hlt
    change (littleEndian 4).decode (Bytes.littleEndian 4 n ++ rest) = _ at hdecode
    rw [decodeWide, hdecode]
    dsimp only
    rw [if_pos hleast]

-- A number above its mark is read in the form that the mark stands for.
theorem decodeLength_shifted {width least n mark : Nat} {rest : Bytes} (hmark : mark < 4)
    (hread : ∀ b bytes, b.toNat % 4 = mark →
      decodeLength (b :: bytes) = decodeShifted (width + 1) least (b :: bytes))
    (hleast : least ≤ n) (hlt : 4 * n + mark < 256 ^ (width + 1)) :
    decodeLength (Bytes.littleEndian (width + 1) (4 * n + mark) ++ rest) = .ok (n, rest) := by
  cases hbytes : Bytes.littleEndian (width + 1) (4 * n + mark) ++ rest with
  | nil => cases hbytes
  | cons b bytes =>
    have hb : b.toNat % 4 = mark := by
      have := mod_four_of_littleEndian hbytes.symm
      omega
    rw [hread b bytes hb, decodeShifted_cons_eq_ok_iff, hb]
    exact ⟨hleast, hlt, hbytes.symm⟩

theorem lawful_length : length.Lawful (· < 2 ^ 32) where
  decode_encode n rest hn := by
    show decodeLength (encodeLength n ++ rest) = .ok (n, rest)
    unfold encodeLength
    simp only [Nat.one_shiftLeft]
    by_cases h₁ : n < 2 ^ 6
    · rw [if_pos h₁]
      apply decodeLength_shifted (show 0 < 4 by decide) _ (Nat.zero_le n) (by omega)
      intro b bytes hb
      rw [decodeLength_cons, if_pos hb]
    · rw [if_neg h₁]
      by_cases h₂ : n < 2 ^ 14
      · rw [if_pos h₂]
        apply decodeLength_shifted (show 1 < 4 by decide) _ (Nat.not_lt.1 h₁) (by omega)
        intro b bytes hb
        rw [decodeLength_cons, if_neg (by omega), if_pos hb]
      · rw [if_neg h₂]
        by_cases h₃ : n < 2 ^ 30
        · rw [if_pos h₃]
          apply decodeLength_shifted (show 2 < 4 by decide) _ (Nat.not_lt.1 h₂) (by omega)
          intro b bytes hb
          rw [decodeLength_cons, if_neg (by omega), if_neg (by omega), if_pos hb]
        · rw [if_neg h₃, List.cons_append, decodeLength_cons]
          exact decodeWide_eq_ok_iff.2 ⟨Nat.not_lt.1 h₃, by omega, rfl⟩
  eq_encode bytes n rest h := by
    replace h : decodeLength bytes = .ok (n, rest) := h
    show n < 2 ^ 32 ∧ bytes = encodeLength n ++ rest
    unfold encodeLength
    simp only [Nat.one_shiftLeft]
    cases bytes with
    | nil => cases h
    | cons b bytes =>
      -- The mark of the first byte decides the form, and the form bounds the length on both sides.
      rw [decodeLength_cons] at h
      obtain hmark | hmark | hmark | hmark : b.toNat % 4 = 0 ∨ b.toNat % 4 = 1 ∨ b.toNat % 4 = 2 ∨
          b.toNat % 4 = 3 := by omega
      · rw [if_pos hmark, decodeShifted_cons_eq_ok_iff, hmark] at h
        obtain ⟨-, hlt, hbytes⟩ := h
        rw [if_pos (by omega)]
        exact ⟨by omega, hbytes⟩
      · rw [if_neg (by omega), if_pos hmark, decodeShifted_cons_eq_ok_iff, hmark] at h
        obtain ⟨hleast, hlt, hbytes⟩ := h
        rw [if_neg (by omega), if_pos (by omega)]
        exact ⟨by omega, hbytes⟩
      · rw [if_neg (by omega), if_neg (by omega), if_pos hmark, decodeShifted_cons_eq_ok_iff,
          hmark] at h
        obtain ⟨hleast, hlt, hbytes⟩ := h
        rw [if_neg (by omega), if_neg (by omega), if_pos (by omega)]
        exact ⟨by omega, hbytes⟩
      · rw [if_neg (by omega), if_neg (by omega), if_neg (by omega)] at h
        by_cases hthree : b.toNat = 3
        · rw [if_pos hthree, decodeWide_eq_ok_iff] at h
          obtain ⟨hleast, hlt, rfl⟩ := h
          obtain rfl : b = 3 := UInt8.toNat_inj.1 hthree
          rw [if_neg (by omega), if_neg (by omega), if_neg (by omega)]
          exact ⟨by omega, rfl⟩
        · rw [if_neg hthree] at h
          cases h

/-! ## Lists -/

-- Reading items reads their written forms, one after the other.
theorem decodeItems_eq_ok_iff (hc : c.Lawful P) {count : Nat} {bytes rest : Bytes}
    {items : List α} :
    decodeItems c count bytes = .ok (items, rest) ↔ items.length = count ∧ (∀ item ∈ items, P item) ∧
      bytes = items.flatMap c.encode ++ rest := by
  induction count generalizing bytes items with
  | zero =>
    rw [decodeItems]
    constructor
    · intro h
      cases h
      exact ⟨rfl, nofun, rfl⟩
    · rintro ⟨hlength, -, rfl⟩
      rw [List.length_eq_zero_iff.1 hlength]
      rfl
  | succ count ih =>
    constructor
    · intro h
      rw [decodeItems] at h
      split at h
      · cases h
      · rename_i item middle hitem
        split at h
        · cases h
        · rename_i others back hothers
          cases h
          obtain ⟨hp, rfl⟩ := hc.eq_encode _ _ _ hitem
          obtain ⟨hlength, hall, rfl⟩ := ih.1 hothers
          refine ⟨by rw [List.length_cons, hlength], ?_, ?_⟩
          · exact List.forall_mem_cons.2 ⟨hp, hall⟩
          · rw [List.flatMap_cons, List.append_assoc]
    · rintro ⟨hlength, hall, rfl⟩
      cases items with
      | nil => cases hlength
      | cons item others =>
        obtain ⟨hp, hall⟩ := List.forall_mem_cons.1 hall
        have hothers := ih.2 ⟨Nat.succ.inj hlength, hall, rfl⟩
        rw [decodeItems, List.flatMap_cons, List.append_assoc, hc.decode_encode _ _ hp]
        dsimp only
        rw [hothers]

-- Items that take up so many bytes each leave room for as many bytes reserved for each.
theorem length_mul_le_length_flatMap {reserve : Nat} {items : List α}
    (hreserve : ∀ item ∈ items, reserve ≤ (c.encode item).length) :
    items.length * reserve ≤ (items.flatMap c.encode).length := by
  induction items with
  | nil => simp
  | cons item others ih =>
    obtain ⟨hitem, hothers⟩ := List.forall_mem_cons.1 hreserve
    have hrest := ih hothers
    rw [List.flatMap_cons, List.length_append, List.length_cons, Nat.succ_mul]
    omega

/-- Lists of fewer than 2³² items are read back exactly, if their items are, and take up the bytes
that are reserved for them. -/
theorem Lawful.list {reserve : Nat} (hc : c.Lawful P)
    (hreserve : ∀ item, P item → reserve ≤ (c.encode item).length) :
    (list reserve c).Lawful fun items => items.length < 2 ^ 32 ∧ ∀ item ∈ items, P item where
  decode_encode items rest hitems := by
    have hlength := lawful_length.decode_encode items.length (items.flatMap c.encode ++ rest) hitems.1
    have hroom : ¬(items.flatMap c.encode ++ rest).length < items.length * reserve := by
      have := length_mul_le_length_flatMap fun item hitem => hreserve item (hitems.2 item hitem)
      rw [List.length_append]
      omega
    simp only [Codec.list, List.append_assoc, hlength, if_neg hroom]
    exact (decodeItems_eq_ok_iff hc).2 ⟨rfl, hitems.2, rfl⟩
  eq_encode bytes items rest h := by
    simp only [Codec.list] at h
    split at h
    · cases h
    · rename_i count middle hcount
      obtain ⟨hlt, rfl⟩ := lawful_length.eq_encode _ _ _ hcount
      split at h
      · cases h
      · obtain ⟨rfl, hall, rfl⟩ := (decodeItems_eq_ok_iff hc).1 h
        exact ⟨⟨hlt, hall⟩, by simp only [Codec.list, List.append_assoc]⟩

theorem lawful_address : address.Lawful fun _ => True := lawful_fixedBytes 20

theorem lawful_hashes : hashes.Lawful fun items => items.length < 2 ^ 32 := by
  simpa [hashes] using lawful_hash.list fun _ _ => Nat.zero_le _

theorem lawful_bytes : bytes.Lawful fun items => items.length < 2 ^ 32 := by
  have hreserve : ∀ byte : UInt8, True → 1 ≤ (uint8.encode byte).length := by
    intro byte _
    exact Nat.le_of_eq (Bytes.length_littleEndian 1 byte.toNat).symm
  simpa [bytes] using lawful_uint8.list hreserve

theorem lawful_words : words.Lawful fun items => items.length < 2 ^ 32 := by
  have hreserve : ∀ word : UInt64, True → 8 ≤ (uint64.encode word).length := by
    intro word _
    exact Nat.le_of_eq (Bytes.length_littleEndian 8 word.toNat).symm
  simpa [words] using lawful_uint64.list hreserve

end FinalityBridge.Scale.Codec
