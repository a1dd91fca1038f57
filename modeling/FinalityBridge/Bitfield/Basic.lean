import FinalityBridge.Error

/-!
# Bitfields

A set of validator positions below a length, packed into 64-bit words: position `p` is bit `p % 64`
of word `p / 64`. There are exactly as many words as the length needs and no bit is set beyond it,
so two bitfields are equal exactly when they have the same length and hold the same positions.
-/

namespace FinalityBridge

namespace Bitfield

def wordsFor (len : Nat) : Nat := (len + 63) / 64

/-- Bit `p` of a list of words; a missing word counts as zero. -/
def bit (words : List UInt64) (p : Nat) : Bool := (words.getD (p / 64) 0).toNat.testBit (p % 64)

def liveMask (len i : Nat) : UInt64 := UInt64.ofNat ((1 <<< min 64 (len - 64 * i)) - 1)

/-- The word with the single bit `k`, for `k` below 64. -/
def single (k : Nat) : UInt64 := UInt64.ofNat (1 <<< k)

theorem toNat_liveMask (len i : Nat) :
    (liveMask len i).toNat = (1 <<< min 64 (len - 64 * i)) - 1 := by
  have h : 2 ^ min 64 (len - 64 * i) ≤ 2 ^ 64 := Nat.pow_le_pow_right (by decide) (by omega)
  rw [liveMask, Nat.one_shiftLeft, UInt64.toNat_ofNat']
  exact Nat.mod_eq_of_lt (by omega)

theorem toNat_single {k : Nat} (h : k < 64) : (single k).toNat = 1 <<< k := by
  rw [single, Nat.one_shiftLeft, UInt64.toNat_ofNat']
  exact Nat.mod_eq_of_lt (Nat.pow_lt_pow_right (by decide) h)

/-- Keeping the bits below `len` in every word keeps the bits below `len`. -/
theorem bit_mapIdx_liveMask (words : List UInt64) (len p : Nat) :
    bit (words.mapIdx fun i w => w &&& liveMask len i) p = (bit words p && decide (p < len)) := by
  simp only [bit, List.getD_eq_getElem?_getD, List.getElem?_mapIdx]
  cases h : words[p / 64]? with
  | none => simp
  | some w =>
    simp only [Option.map_some, Option.getD_some, UInt64.toNat_and, Nat.testBit_and, toNat_liveMask,
      Nat.one_shiftLeft, Nat.testBit_two_pow_sub_one]
    congr 1
    simp only [decide_eq_decide]
    omega

/-- Setting bit `k` of word `i` sets bit `64 * i + k` and no other. -/
theorem bit_modify_single {words : List UInt64} {p : Nat} (h : p / 64 < words.length) (q : Nat) :
    bit (words.modify (p / 64) (· ||| single (p % 64))) q = (bit words q || decide (q = p)) := by
  simp only [bit, List.getD_eq_getElem?_getD, List.getElem?_modify]
  by_cases hw : p / 64 = q / 64
  · have hq : q / 64 < words.length := hw ▸ h
    rw [List.getElem?_eq_getElem hq]
    simp only [hw, if_true, Option.map_eq_map, Option.map_some, Option.getD_some, UInt64.toNat_or,
      Nat.testBit_or, toNat_single (Nat.mod_lt p (by decide : 0 < 64)), Nat.one_shiftLeft,
      Nat.testBit_two_pow]
    congr 1
    simp only [decide_eq_decide]
    omega
  · have hne : q ≠ p := fun e => hw (by rw [e])
    simp [hw, hne]

end Bitfield

structure Bitfield where
  -- The packed positions.
  words : List UInt64
  -- The number of validators covered.
  len : UInt32
  length_words : words.length = Bitfield.wordsFor len.toNat
  bit_eq_false : ∀ p, len.toNat ≤ p → Bitfield.bit words p = false
deriving DecidableEq

namespace Bitfield

def contains (b : Bitfield) (position : UInt32) : Bool := bit b.words position.toNat

/-- The bitfield whose positions are the bits of `words` below `len`. Missing words count as zero;
more words than `len` needs are an error. -/
def ofWords (words : List UInt64) (len : UInt32) : Except Error Bitfield :=
  if h : words.length ≤ wordsFor len.toNat then
    .ok
      { words := (words ++ List.replicate (wordsFor len.toNat - words.length) 0).mapIdx
          fun i w => w &&& liveMask len.toNat i
        len
        length_words := by simp; omega
        bit_eq_false := fun p hp => by
          rw [bit_mapIdx_liveMask, decide_eq_false (by omega), Bool.and_false] }
  else .error (.invalidBitfieldLength words.length (wordsFor len.toNat) len)

def empty (len : UInt32) : Bitfield where
  words := List.replicate (wordsFor len.toNat) 0
  len
  length_words := List.length_replicate
  bit_eq_false p _ := by simp [bit, List.getD_eq_getElem?_getD, List.getElem?_replicate]; split <;> simp

/-- Adds a position; one at or beyond the length is ignored. -/
def insert (b : Bitfield) (position : UInt32) : Bitfield :=
  if h : position < b.len then
    { words := b.words.modify (position.toNat / 64) (· ||| single (position.toNat % 64))
      len := b.len
      length_words := by simp [b.length_words]
      bit_eq_false := fun p hp => by
        have hlt : position.toNat < b.len.toNat := UInt32.lt_iff_toNat_lt.1 h
        have hw : position.toNat / 64 < b.words.length := by
          rw [b.length_words, wordsFor]
          omega
        rw [bit_modify_single hw, b.bit_eq_false p hp, decide_eq_false (by omega), Bool.false_or] }
  else b

/-- The bitfield that holds the given positions, all of which must be below the length. -/
def ofPositions (positions : List UInt32) (len : UInt32) : Except Error Bitfield :=
  match positions.find? fun position => len ≤ position with
  | some position =>
    .error (.invalidBitfieldLength (wordsFor (min (position.toNat + 1) (UInt32.size - 1)))
      (wordsFor len.toNat) len)
  | none => .ok (positions.foldl insert (empty len))

def wordBits (word : UInt64) : List Bool := (List.range 64).map word.toNat.testBit

/-- Whether each position below the length is in the set, in ascending order. -/
def toBits (b : Bitfield) : List Bool := (b.words.flatMap wordBits).take b.len.toNat

def ones (b : Bitfield) : List UInt32 :=
  b.toBits.zipIdx.filterMap fun (set, position) => if set then some (UInt32.ofNat position) else none

def count (b : Bitfield) : Nat := (b.words.flatMap wordBits).count true

/-- Whether every position in `a` is in `b`, whatever their lengths. -/
def isSubsetOf (a b : Bitfield) : Bool :=
  a.words.zipIdx.all fun (word, i) => word &&& ~~~(b.words.getD i 0) == 0

/-- The bitfield as a binary number: a digit for each position, the highest first. -/
def render (b : Bitfield) : String :=
  String.ofList (b.toBits.reverse.map fun set => if set then '1' else '0')

/-- The written form: the words, then the length. Only the words of a bitfield are read back: exactly
as many as the length needs, with no bit beyond it. -/
def codec : Scale.Codec Bitfield where
  encode b := (Scale.Codec.words.pair Scale.Codec.uint32).encode (b.words, b.len)
  decode bytes :=
    match (Scale.Codec.words.pair Scale.Codec.uint32).decode bytes with
    | .error e => .error e
    | .ok ((words, len), rest) =>
      if wordsFor len.toNat < words.length then .error .excessWords
      else if words.length < wordsFor len.toNat then .error .nonCanonicalBits
      else
        match ofWords words len with
        | .ok b => if b.words = words then .ok (b, rest) else .error .nonCanonicalBits
        | .error _ => .error .excessWords

end Bitfield

end FinalityBridge
