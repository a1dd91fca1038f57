import Mathlib.Data.List.Forall2
import Mathlib.Data.List.TakeWhile
import FinalityBridge.Proofs.Bytes
import FinalityBridge.Text.Value

/-!
# Ways to write values

What a number, a byte string or a list may look like as text, and that the readers take all of it: a
number with an optional plus sign and leading zeros (`Decimal.read_of_spells`), bytes by two
hexadecimal digits each of either case, marked or not (`Hex.read_of_spells`, `Hex.readHash_of_spells`),
and a list by parts between commas, with blanks around each part (`ValueReader.list_of_lists`). What
the printers give is among it.
-/

namespace FinalityBridge

/-! ## Characters -/

/-- Characters that stand for themselves: none of the marks of lists and of command lines. -/
def Text.IsInert (c : Char) : Prop := isBlank c = false ∧ c ≠ ',' ∧ c ≠ '-' ∧ c ≠ '='

instance (c : Char) : Decidable (Text.IsInert c) := inferInstanceAs (Decidable (_ ∧ _))

-- What holds of the first 128 characters one by one holds of each of them.
theorem Text.forall_ascii {P : Char → Prop} (h : ∀ n < 128, P (Char.ofNat n)) {c : Char}
    (hc : c.toNat < 128) : P c := by
  rw [← Char.ofNat_toNat c]
  exact h c.toNat hc

/-! ## Numbers -/

namespace Decimal

/-- A text spells a number by decimal digits, after a plus sign or not. -/
def Spells (text : List Char) (n : Nat) : Prop :=
  ∃ digits, (text = digits ∨ text = '+' :: digits) ∧ digits ≠ [] ∧
    (∀ c ∈ digits, c.isDigit = true) ∧ Nat.ofDigitChars 10 digits 0 = n

theorem isDigit_iff {c : Char} : c.isDigit = true ↔ '0' ≤ c ∧ c ≤ '9' := by
  rw [Char.isDigit, Bool.and_eq_true, decide_eq_true_eq, decide_eq_true_eq]
  exact Iff.rfl

theorem digit?_of_isDigit {c : Char} (h : c.isDigit = true) :
    digit? c = some (c.toNat - '0'.toNat) :=
  if_pos (isDigit_iff.1 h)

theorem isInert_of_isDigit {c : Char} (h : c.isDigit = true) : Text.IsInert c := by
  have hle : c.toNat ≤ 57 := (isDigit_iff.1 h).2
  have hall : ∀ n < 128, (Char.ofNat n).isDigit = true → Text.IsInert (Char.ofNat n) := by
    decide +kernel
  exact Text.forall_ascii (P := fun c => c.isDigit = true → Text.IsInert c) hall (by omega) h

-- All that is spelled by digits is read, unless it reaches the bound.
theorem readDigits_eq {bound soFar : Nat} {digits : List Char}
    (hdigits : ∀ c ∈ digits, c.isDigit = true) (hlt : soFar < bound) :
    readDigits bound soFar digits =
      if Nat.ofDigitChars 10 digits soFar < bound then .ok (Nat.ofDigitChars 10 digits soFar)
      else .error .integerTooLarge := by
  induction digits generalizing soFar with
  | nil => rw [readDigits, Nat.ofDigitChars_nil, if_pos hlt]
  | cons c digits ih =>
    obtain ⟨hc, hdigits⟩ := List.forall_mem_cons.1 hdigits
    rw [readDigits, digit?_of_isDigit hc, Nat.ofDigitChars_cons]
    dsimp only
    by_cases hnext : 10 * soFar + (c.toNat - '0'.toNat) < bound
    · rw [if_pos hnext, ih hdigits hnext]
    · -- More digits make the number no smaller.
      have hle : 10 * soFar + (c.toNat - '0'.toNat) ≤
          Nat.ofDigitChars 10 digits (10 * soFar + (c.toNat - '0'.toNat)) := by
        rw [Nat.ofDigitChars_eq_ofDigitChars_zero]
        exact Nat.le_add_right_of_le (Nat.le_mul_of_pos_left _ (Nat.pow_pos (by decide)))
      rw [if_neg hnext, if_neg (by omega)]

/-- A number is read from all that spells it, if it is below the bound. -/
theorem read_of_spells {bound n : Nat} {text : List Char} (h : Spells text n) (hbound : 0 < bound) :
    read bound text = if n < bound then .ok n else .error .integerTooLarge := by
  obtain ⟨digits, htext, hne, hdigits, rfl⟩ := h
  rw [← readDigits_eq hdigits hbound]
  obtain ⟨c, rest, rfl⟩ := List.exists_cons_of_ne_nil hne
  obtain rfl | rfl := htext
  · have hc : c ≠ '+' := by
      rintro rfl
      exact absurd (hdigits '+' List.mem_cons_self) (by decide)
    unfold read
    split
    · rename_i heq
      cases heq
    · rename_i heq
      cases heq
      exact absurd rfl hc
    · rename_i heq
      cases heq
      exact absurd rfl hc
    · rfl
  · rfl

theorem isInert_of_spells {n : Nat} {text : List Char} (h : Spells text n) :
    ∀ c ∈ text, Text.IsInert c := by
  obtain ⟨digits, rfl | rfl, -, hdigits, -⟩ := h
  · intro c hc
    exact isInert_of_isDigit (hdigits c hc)
  · intro c hc
    obtain rfl | hc := List.mem_cons.1 hc
    · decide
    · exact isInert_of_isDigit (hdigits c hc)

/-- The printed form spells the number. -/
theorem spells_toString (n : Nat) : Spells (toString n).toList n := by
  refine ⟨Nat.toDigits 10 n, .inl ?_, Nat.toDigits_ne_nil, ?_, Nat.ofDigitChars_toDigits ?_ ?_⟩
  · rw [Nat.toString_eq_repr, Nat.repr_eq_ofList_toDigits, String.toList_ofList]
  · intro c hc
    exact Nat.isDigit_of_mem_toDigits (by decide) (by decide) hc
  · decide
  · decide

end Decimal

/-! ## Byte strings -/

namespace Hex

/-- Pairs of hexadecimal digits, the bytes that they stand for. -/
inductive Pairs : List Char → Bytes → Prop
  | nil : Pairs [] []
  | cons {high low : Char} {h l : Nat} {digits : List Char} {bytes : Bytes}
      (hhigh : value? high = some h) (hlow : value? low = some l) (hrest : Pairs digits bytes) :
      Pairs (high :: low :: digits) (UInt8.ofNat (16 * h + l) :: bytes)

/-- A text spells a byte string by pairs of digits, after the mark `0x` or not. -/
def Spells (text : List Char) (bytes : Bytes) : Prop :=
  ∃ digits, (text = digits ∨ text = '0' :: 'x' :: digits) ∧ Pairs digits bytes

/-- Characters that are digits: their code is a byte of its own, and no reader takes them for
anything else. -/
structure IsDigit (c : Char) : Prop where
  encode : String.utf8EncodeChar c = [c.toUInt8]
  ofUInt8 : Char.ofUInt8 c.toUInt8 = c
  inert : Text.IsInert c
  not_gap : ¬IsGap c
  ne_mark : c ≠ 'x'

theorem isDigit_of_value? {c : Char} {v : Nat} (h : value? c = some v) : IsDigit c := by
  have hlt : c.toNat < 128 := by
    unfold value? at h
    split at h
    · rename_i hc
      have hle : c.toNat ≤ 57 := hc.2
      omega
    · split at h
      · rename_i hc
        have hle : c.toNat ≤ 102 := hc.2
        omega
      · split at h
        · rename_i hc
          have hle : c.toNat ≤ 70 := hc.2
          omega
        · cases h
  have hall : ∀ n < 128, (value? (Char.ofNat n)).isSome →
      String.utf8EncodeChar (Char.ofNat n) = [(Char.ofNat n).toUInt8] ∧
      Char.ofUInt8 (Char.ofNat n).toUInt8 = Char.ofNat n ∧ Text.IsInert (Char.ofNat n) ∧
      ¬IsGap (Char.ofNat n) ∧ Char.ofNat n ≠ 'x' := by
    decide +kernel
  have hc := Text.forall_ascii (P := fun c => (value? c).isSome →
      String.utf8EncodeChar c = [c.toUInt8] ∧ Char.ofUInt8 c.toUInt8 = c ∧ Text.IsInert c ∧
      ¬IsGap c ∧ c ≠ 'x') hall hlt (by rw [h]; rfl)
  exact ⟨hc.1, hc.2.1, hc.2.2.1, hc.2.2.2.1, hc.2.2.2.2⟩

namespace Pairs

variable {digits : List Char} {bytes : Bytes}

theorem isDigit (h : Pairs digits bytes) : ∀ c ∈ digits, IsDigit c := by
  induction h with
  | nil => exact nofun
  | cons hhigh hlow _ ih =>
    refine List.forall_mem_cons.2 ⟨isDigit_of_value? hhigh, ?_⟩
    exact List.forall_mem_cons.2 ⟨isDigit_of_value? hlow, ih⟩

theorem length_eq (h : Pairs digits bytes) : digits.length = 2 * bytes.length := by
  induction h with
  | nil => rfl
  | cons _ _ _ ih =>
    simp only [List.length_cons]
    omega

-- The digits are read in pairs, wherever they stand.
theorem readPairs_eq (h : Pairs digits bytes) (position : Nat) :
    readPairs position (digits.flatMap String.utf8EncodeChar) = .ok bytes := by
  induction h generalizing position with
  | nil => rfl
  | cons hhigh hlow _ ih =>
    have high := isDigit_of_value? hhigh
    have low := isDigit_of_value? hlow
    rw [List.flatMap_cons, List.flatMap_cons, high.encode, low.encode]
    simp only [List.cons_append, List.nil_append, readPairs, high.ofUInt8, low.ofUInt8, hhigh, hlow, ih]

theorem readSpaced_eq (h : Pairs digits bytes) (position : Nat) :
    ∃ values, readSpaced position digits.length digits = .ok values ∧ ofValues values = bytes := by
  induction h generalizing position with
  | nil => exact ⟨[], rfl, rfl⟩
  | @cons high low h l digits bytes hhigh hlow hrest ih =>
    obtain ⟨values, hvalues, hbytes⟩ := ih (position + high.utf8Size + low.utf8Size)
    refine ⟨h :: l :: values, ?_, by rw [ofValues, hbytes]⟩
    simp only [List.length_cons, readSpaced, if_neg (isDigit_of_value? hhigh).not_gap,
      if_neg (isDigit_of_value? hlow).not_gap, hhigh, hlow, hvalues]

theorem length_flatMap (h : Pairs digits bytes) :
    (digits.flatMap String.utf8EncodeChar).length = 2 * bytes.length := by
  induction h with
  | nil => rfl
  | cons hhigh hlow _ ih =>
    rw [List.flatMap_cons, List.flatMap_cons, (isDigit_of_value? hhigh).encode,
      (isDigit_of_value? hlow).encode]
    simp only [List.length_append, List.length_cons, List.length_nil, ih]
    omega

-- Digits are no mark, so nothing of them is taken for it.
theorem unmarked_eq (h : Pairs digits bytes) : unmarked digits = digits := by
  unfold unmarked
  split
  · exact absurd rfl (h.isDigit 'x' (by simp)).ne_mark
  · rfl

end Pairs

variable {text : List Char} {bytes : Bytes}

theorem Spells.pairs (h : Spells text bytes) : Pairs (unmarked text) bytes := by
  obtain ⟨digits, rfl | rfl, hpairs⟩ := h
  · rwa [hpairs.unmarked_eq]
  · exact hpairs

/-- A byte string is read from all that spells it. -/
theorem read_of_spells (h : Spells text bytes) : read text = .ok bytes := by
  have heven : ¬((unmarked text).flatMap String.utf8EncodeChar).length % 2 = 1 := by
    rw [h.pairs.length_flatMap]
    omega
  unfold read
  rw [if_neg heven, h.pairs.readPairs_eq]

theorem readFixed_of_spells {size : Nat} {value : FixedBytes size} (h : Spells text value.bytes) :
    readFixed size text = .ok value := by
  unfold readFixed
  rw [read_of_spells h]
  exact dif_pos value.length_bytes

/-- A digest is read from all that spells it. -/
theorem readHash_of_spells {hash : Hash} (h : Spells text hash.bytes) : readHash text = .ok hash := by
  obtain ⟨values, hvalues, hbytes⟩ := h.pairs.readSpaced_eq 0
  rw [h.pairs.length_eq, hash.length_bytes] at hvalues
  unfold readHash
  rw [hvalues]
  simp only [hbytes, FixedBytes.ofBytes?_bytes]

theorem isInert_of_spells (h : Spells text bytes) : ∀ c ∈ text, Text.IsInert c := by
  obtain ⟨digits, rfl | rfl, hpairs⟩ := h
  · intro c hc
    exact (hpairs.isDigit c hc).inert
  · refine List.forall_mem_cons.2 ⟨by decide, List.forall_mem_cons.2 ⟨by decide, ?_⟩⟩
    intro c hc
    exact (hpairs.isDigit c hc).inert

theorem value?_digit : ∀ n < 16, value? (digit n) = some n := by decide

theorem pairs_digits (bytes : Bytes) : Pairs (digits bytes) bytes := by
  induction bytes with
  | nil => exact .nil
  | cons b bytes ih =>
    have hb := b.toNat_lt
    have hpairs := Pairs.cons (value?_digit (b.toNat / 16) (by omega))
      (value?_digit (b.toNat % 16) (by omega)) ih
    rw [show 16 * (b.toNat / 16) + b.toNat % 16 = b.toNat by omega, UInt8.ofNat_toNat] at hpairs
    exact hpairs

/-- The printed form spells the byte string. -/
theorem spells_render (bytes : Bytes) : Spells (render bytes).toList bytes := by
  refine ⟨digits bytes, .inr ?_, pairs_digits bytes⟩
  rw [render, String.toList_append]
  exact congrArg ('0' :: 'x' :: ·) String.toList_ofList

end Hex

/-! ## Lists -/

namespace Text

/-- A text with blanks around it, or none. -/
def Padded (core text : List Char) : Prop :=
  ∃ left right, (∀ c ∈ left, isBlank c = true) ∧ (∀ c ∈ right, isBlank c = true) ∧
    text = left ++ core ++ right

/-- A text lists items by parts between commas, of which each spells an item, with blanks around it or
none. -/
def Lists {α : Type} (Spells : List Char → α → Prop) (text : List Char) (items : List α) : Prop :=
  ∃ parts, parts ≠ [] ∧ text = [','].intercalate parts ∧
    List.Forall₂ (fun part item => ∃ core, Padded core part ∧ Spells core item) parts items

theorem trim_of_padded {core text : List Char} (h : Padded core text)
    (hcore : ∀ c ∈ core, isBlank c = false) : trim text = core := by
  obtain ⟨left, right, hleft, hright, rfl⟩ := h
  have hright' : ∀ c ∈ right.reverse, isBlank c = true := by
    intro c hc
    exact hright c (List.mem_reverse.1 hc)
  unfold trim
  rw [List.append_assoc, List.dropWhile_append_of_pos hleft]
  cases core with
  | nil =>
    rw [List.nil_append, List.dropWhile_eq_nil_iff.2 hright]
    rfl
  | cons c core =>
    have hc := hcore c List.mem_cons_self
    have hlast : (c :: core).reverse.dropWhile isBlank = (c :: core).reverse := by
      rw [List.dropWhile_eq_self_iff]
      intro hlength hblank
      rw [hcore _ (List.mem_reverse.1 (List.getElem_mem hlength))] at hblank
      cases hblank
    rw [List.cons_append, List.dropWhile_cons_of_neg (by rw [hc]; decide), ← List.cons_append,
      List.reverse_append, List.dropWhile_append_of_pos hright', hlast, List.reverse_reverse]

theorem splitCommas_eq (text : List Char) : splitCommas text = text.splitOn ',' := by
  induction text with
  | nil => rfl
  | cons c rest ih =>
    unfold List.splitOn at ih ⊢
    rw [splitCommas, ih, List.splitOnP_cons_eq_if_modifyHead]
    by_cases hc : c = ','
    · rw [if_pos hc, if_pos (beq_iff_eq.2 hc)]
    · rw [if_neg hc, if_neg (by rwa [beq_iff_eq])]
      cases hrest : rest.splitOnP (· == ',') with
      | nil => exact absurd hrest (List.splitOnP_ne_nil _ _)
      | cons part parts => rfl

-- What stands in a list stands in one of its parts or between them.
theorem mem_intercalate {sep : List Char} {c : Char} {parts : List (List Char)}
    (h : c ∈ sep.intercalate parts) : c ∈ sep ∨ ∃ part ∈ parts, c ∈ part := by
  induction parts with
  | nil => cases h
  | cons part parts ih =>
    cases parts with
    | nil =>
      rw [List.intercalate_singleton] at h
      exact .inr ⟨part, List.mem_cons_self, h⟩
    | cons next parts =>
      rw [List.intercalate_cons_cons, List.mem_append, List.mem_append] at h
      obtain (h | h) | h := h
      · exact .inr ⟨part, List.mem_cons_self, h⟩
      · exact .inl h
      · obtain h | ⟨part', hmem, h⟩ := ih h
        · exact .inl h
        · exact .inr ⟨part', List.mem_cons_of_mem part hmem, h⟩

-- The parts between commas are found again.
theorem splitCommas_intercalate {parts : List (List Char)} (hne : parts ≠ [])
    (hparts : ∀ part ∈ parts, ',' ∉ part) : splitCommas ([','].intercalate parts) = parts := by
  rw [splitCommas_eq, List.splitOn_intercalate ',' hparts hne]

theorem inert_of_padded {core text : List Char} (h : Padded core text)
    (hcore : ∀ c ∈ core, IsInert c) : ∀ c ∈ text, c ≠ ',' ∧ c ≠ '-' ∧ c ≠ '=' := by
  obtain ⟨left, right, hleft, hright, rfl⟩ := h
  have hblank : ∀ c, isBlank c = true → c ≠ ',' ∧ c ≠ '-' ∧ c ≠ '=' := by
    rintro c hc
    refine ⟨?_, ?_, ?_⟩ <;> rintro rfl <;> exact absurd hc (by decide)
  intro c hc
  obtain hc | hc := List.mem_append.1 hc
  · obtain hc | hc := List.mem_append.1 hc
    · exact hblank c (hleft c hc)
    · exact (hcore c hc).2
  · exact hblank c (hright c hc)

section Lists

variable {α : Type} {Spells : List Char → α → Prop} {text : List Char} {items : List α}

theorem forall_of_forall₂ {β : Type} {R : α → β → Prop} {P : α → Prop} {as : List α} {bs : List β}
    (h : List.Forall₂ R as bs) (hP : ∀ a b, R a b → P a) : ∀ a ∈ as, P a := by
  induction h with
  | nil => exact nofun
  | cons hab _ ih => exact List.forall_mem_cons.2 ⟨hP _ _ hab, ih⟩

/-- The parts of a list are found again, whatever blanks are around them. -/
theorem Lists.splitCommas_trim (h : Lists Spells text items)
    (hinert : ∀ core item, Spells core item → ∀ c ∈ core, IsInert c) :
    List.Forall₂ (fun part item => Spells (trim part) item) (splitCommas text) items := by
  obtain ⟨parts, hne, rfl, hparts⟩ := h
  have hcommas : ∀ part ∈ parts, ',' ∉ part := by
    apply forall_of_forall₂ (P := fun part => ',' ∉ part) hparts
    rintro part item ⟨core, hpadded, hspells⟩ hmem
    exact (inert_of_padded hpadded (hinert core item hspells) ',' hmem).1 rfl
  rw [splitCommas_intercalate hne hcommas]
  apply hparts.imp
  rintro part item ⟨core, hpadded, hspells⟩
  rwa [trim_of_padded hpadded fun c hc => (hinert core item hspells c hc).1]

end Lists

end Text

/-! ## Readers -/

namespace ValueReader

variable {α β ε : Type} {text : String}

-- A number is read if it is one of the type's, and else it is too large.
theorem map_read_of_spells {bound n : Nat} {digits : List Char} (h : Decimal.Spells digits n)
    (hbound : 0 < bound) (ofNat : Nat → α) :
    ofNat <$> Decimal.read bound digits =
      if n < bound then .ok (ofNat n) else .error .integerTooLarge := by
  rw [Decimal.read_of_spells h hbound]
  split <;> rfl

theorem uint8_of_spells {n : Nat} (h : Decimal.Spells text.toList n) :
    uint8 text = if n < 2 ^ 8 then .ok (UInt8.ofNat n) else .error .integerTooLarge :=
  map_read_of_spells h (by decide) UInt8.ofNat

theorem uint32_of_spells {n : Nat} (h : Decimal.Spells text.toList n) :
    uint32 text = if n < 2 ^ 32 then .ok (UInt32.ofNat n) else .error .integerTooLarge :=
  map_read_of_spells h (by decide) UInt32.ofNat

theorem uint64_of_spells {n : Nat} (h : Decimal.Spells text.toList n) :
    uint64 text = if n < 2 ^ 64 then .ok (UInt64.ofNat n) else .error .integerTooLarge :=
  map_read_of_spells h (by decide) UInt64.ofNat

theorem uint8_of_spells_toNat {value : UInt8} (h : Decimal.Spells text.toList value.toNat) :
    uint8 text = .ok value := by
  rw [uint8_of_spells h, if_pos value.toNat_lt, UInt8.ofNat_toNat]

theorem uint32_of_spells_toNat {value : UInt32} (h : Decimal.Spells text.toList value.toNat) :
    uint32 text = .ok value := by
  rw [uint32_of_spells h, if_pos value.toNat_lt, UInt32.ofNat_toNat]

theorem uint64_of_spells_toNat {value : UInt64} (h : Decimal.Spells text.toList value.toNat) :
    uint64 text = .ok value := by
  rw [uint64_of_spells h, if_pos value.toNat_lt, UInt64.ofNat_toNat]

theorem bytes_of_spells {value : Bytes} (h : Hex.Spells text.toList value) : bytes text = .ok value :=
  Hex.read_of_spells h

theorem hash_of_spells {value : Hash} (h : Hex.Spells text.toList value.bytes) :
    hash text = .ok value :=
  Hex.readHash_of_spells h

theorem mapM_eq_ok_of_forall₂ {f : α → Except ε β} {as : List α} {bs : List β}
    (h : List.Forall₂ (fun a b => f a = .ok b) as bs) : as.mapM f = .ok bs := by
  induction h with
  | nil => rfl
  | cons hab _ ih =>
    rw [List.mapM_cons, hab, ih]
    rfl

/-- A list is read from all that lists its items, if these are read from all that spells them. -/
theorem list_of_lists {Spells : List Char → α → Prop} {reader : List Char → Except ValueError α}
    {items : List α} (h : Text.Lists Spells text.toList items)
    (hinert : ∀ core item, Spells core item → ∀ c ∈ core, Text.IsInert c)
    (hread : ∀ core item, Spells core item → reader core = .ok item) :
    list reader text = .ok items := by
  apply mapM_eq_ok_of_forall₂
  exact (h.splitCommas_trim hinert).imp fun part item => hread (Text.trim part) item

theorem list_fixed_of_lists {size : Nat} {items : List (FixedBytes size)}
    (h : Text.Lists (fun part item => Hex.Spells part item.bytes) text.toList items) :
    list (Hex.readFixed size) text = .ok items :=
  list_of_lists h (fun _ _ => Hex.isInert_of_spells) fun _ _ => Hex.readFixed_of_spells

theorem addresses_of_lists {items : List Address}
    (h : Text.Lists (fun part item => Hex.Spells part item.bytes) text.toList items) :
    addresses text = .ok items :=
  list_fixed_of_lists h

theorem hashes_of_lists {items : List Hash}
    (h : Text.Lists (fun part item => Hex.Spells part item.bytes) text.toList items) :
    hashes text = .ok items :=
  list_fixed_of_lists h

theorem positions_of_lists {items : List UInt32}
    (h : Text.Lists (fun part item => Decimal.Spells part item.toNat) text.toList items) :
    positions text = .ok items := by
  apply list_of_lists h (fun _ _ => Decimal.isInert_of_spells)
  intro part item hspells
  have hlt : item.toNat < UInt32.size := item.toNat_lt
  rw [map_read_of_spells hspells (by decide), if_pos hlt, UInt32.ofNat_toNat]

end ValueReader

end FinalityBridge
