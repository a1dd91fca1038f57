import FinalityBridge.Bytes

/-!
# The wire format

Fixed-width integers are written least significant byte first, lists are preceded by their length
in compact form, and records are their fields one after the other. A `Codec` is a writer and a
reader of one type; larger codecs are put together from smaller ones.
-/

namespace FinalityBridge.Scale

inductive DecodeError where
  -- A value of known size, a length or an item of a list lacks bytes.
  | endOfInput
  -- A list of fixed-width integers announces more of them than there are bytes.
  | vectorTooLong
  -- A length is not in its shortest form, or needs more than 32 bits.
  | compactOutOfRange
  -- A bitfield has more words than its length needs.
  | excessWords
  -- A bitfield has fewer words than its length needs, or bits beyond its length.
  | nonCanonicalBits
  -- Bytes follow the value.
  | trailingBytes
  -- The value of a field could not be read.
  | inField (field : String) (cause : DecodeError)
deriving DecidableEq

namespace DecodeError

/-- The text of a cause, for the causes that are no field's. -/
def reason : DecodeError → String
  | endOfInput => "Not enough data to fill buffer"
  | vectorTooLong => "Not enough data to decode vector"
  | compactOutOfRange => "out of range decoding Compact<u32>"
  | excessWords => "Bitfield has more words than validators"
  | nonCanonicalBits => "Non-canonical bitfield encoding"
  | trailingBytes => "Input buffer has still data left after decoding!"
  | inField field _ => "Could not decode `" ++ field ++ "`:"

/-- The lines of an error below `depth` others, each indented by its depth and ended. -/
def lines (depth : Nat) (error : DecodeError) : String :=
  let line := String.ofList (List.replicate depth '\t') ++ error.reason ++ "\n"
  match error with
  | inField _ cause => line ++ cause.lines (depth + 1)
  | _ => line

/-- The text of an error: a field's name stands above what went wrong in it, and an error outside
all fields is a text without an end of line. -/
def message : DecodeError → String
  | inField field cause => lines 0 (inField field cause)
  | error => error.reason

end DecodeError

/-- What reading the front of a byte string gives: a value and the bytes after it. -/
abbrev Reading (α : Type) := Except DecodeError (α × Bytes)

/-- The first `n` bytes and the bytes after them, if there are as many. -/
def split? : (n : Nat) → Bytes → Option (Bytes × Bytes)
  | 0, bytes => some ([], bytes)
  | _ + 1, [] => none
  | n + 1, b :: bytes => (split? n bytes).map fun (front, back) => (b :: front, back)

theorem split?_append (front back : Bytes) : split? front.length (front ++ back) = some (front, back) := by
  induction front with
  | nil => rfl
  | cons b front ih => simp [split?, ih]

theorem eq_append_of_split? {n : Nat} {bytes front back : Bytes}
    (h : split? n bytes = some (front, back)) : front.length = n ∧ bytes = front ++ back := by
  induction n generalizing bytes front with
  | zero => simp [split?] at h; simp [← h.1, ← h.2]
  | succ n ih =>
    cases bytes with
    | nil => simp [split?] at h
    | cons b bytes =>
      simp only [split?, Option.map_eq_some_iff] at h
      obtain ⟨⟨f, k⟩, hf, h⟩ := h
      simp only [Prod.mk.injEq] at h
      obtain ⟨rfl, rfl⟩ := h
      obtain ⟨hl, he⟩ := ih hf
      simp [hl, ← he]

structure Codec (α : Type) where
  -- The written form of a value.
  encode : α → Bytes
  -- Reads a value off the front of a byte string.
  decode : Bytes → Reading α

namespace Codec

variable {α β : Type}

def decodeAll (c : Codec α) (bytes : Bytes) : Except DecodeError α :=
  match c.decode bytes with
  | .ok (value, []) => .ok value
  | .ok _ => .error .trailingBytes
  | .error e => .error e

/-- Byte strings of a fixed size, written as they are. -/
def fixedBytes (size : Nat) : Codec (FixedBytes size) where
  encode value := value.bytes
  decode bytes :=
    match split? size bytes with
    | some (front, back) => if h : front.length = size then .ok (⟨front, h⟩, back) else .error .endOfInput
    | none => .error .endOfInput

/-- Natural numbers of `width` bytes, least significant first. -/
def littleEndian (width : Nat) : Codec Nat where
  encode n := Bytes.littleEndian width n
  decode bytes :=
    match split? width bytes with
    | some (front, back) => .ok (Bytes.ofLittleEndian front, back)
    | none => .error .endOfInput

def map (c : Codec α) (view : α → β) (back : β → α) : Codec β where
  encode value := c.encode (back value)
  decode bytes :=
    match c.decode bytes with
    | .ok (value, rest) => .ok (view value, rest)
    | .error e => .error e

def pair (c : Codec α) (d : Codec β) : Codec (α × β) where
  encode value := c.encode value.1 ++ d.encode value.2
  decode bytes :=
    match c.decode bytes with
    | .error e => .error e
    | .ok (first, rest) =>
      match d.decode rest with
      | .error e => .error e
      | .ok (second, rest) => .ok ((first, second), rest)

/-- A value that is the field of a record, which errors in it name. -/
def field (name : String) (c : Codec α) : Codec α where
  encode := c.encode
  decode bytes :=
    match c.decode bytes with
    | .error e => .error (.inField name e)
    | .ok reading => .ok reading

def uint8 : Codec UInt8 := (littleEndian 1).map UInt8.ofNat UInt8.toNat

def uint32 : Codec UInt32 := (littleEndian 4).map UInt32.ofNat UInt32.toNat

def uint64 : Codec UInt64 := (littleEndian 8).map UInt64.ofNat UInt64.toNat

def hash : Codec Hash := fixedBytes 32

def address : Codec Address := fixedBytes 20

/-- Writes a length below 2³² in the shortest of four forms, which the two low bits of the first
byte tell apart: one byte, two bytes and four bytes that hold the length above these bits, and a
byte of its own followed by the four bytes of the length. -/
def encodeLength (n : Nat) : Bytes :=
  if n < 1 <<< 6 then Bytes.littleEndian 1 (4 * n)
  else if n < 1 <<< 14 then Bytes.littleEndian 2 (4 * n + 1)
  else if n < 1 <<< 30 then Bytes.littleEndian 4 (4 * n + 2)
  else 3 :: Bytes.littleEndian 4 n

/-- Reads a length and refuses it if a shorter form would hold it. -/
def decodeLength (bytes : Bytes) : Reading Nat :=
  let atLeast (least : Nat) (n : Nat) (rest : Bytes) : Reading Nat :=
    if least ≤ n then .ok (n, rest) else .error .compactOutOfRange
  let shifted (width least : Nat) : Reading Nat :=
    match (littleEndian width).decode bytes with
    | .error e => .error e
    | .ok (n, rest) => atLeast least (n / 4) rest
  match bytes with
  | [] => .error .endOfInput
  | b :: rest =>
    if b.toNat % 4 = 0 then shifted 1 0
    else if b.toNat % 4 = 1 then shifted 2 (1 <<< 6)
    else if b.toNat % 4 = 2 then shifted 4 (1 <<< 14)
    else if b.toNat = 3 then
      match (littleEndian 4).decode rest with
      | .error e => .error e
      | .ok (n, rest) => atLeast (1 <<< 30) n rest
    else .error .compactOutOfRange

def length : Codec Nat where
  encode := encodeLength
  decode := decodeLength

def decodeItems (c : Codec α) : (count : Nat) → Bytes → Reading (List α)
  | 0, bytes => .ok ([], bytes)
  | count + 1, bytes =>
    match c.decode bytes with
    | .error e => .error e
    | .ok (item, rest) =>
      match decodeItems c count rest with
      | .error e => .error e
      | .ok (items, rest) => .ok (item :: items, rest)

/-- Lists, preceded by their length. There must be at least `reserve` bytes for each item before any
of them is read. -/
def list (reserve : Nat) (c : Codec α) : Codec (List α) where
  encode items := length.encode items.length ++ items.flatMap c.encode
  decode bytes :=
    match length.decode bytes with
    | .error e => .error e
    | .ok (count, rest) =>
      if rest.length < count * reserve then .error .vectorTooLong
      else decodeItems c count rest

def hashes : Codec (List Hash) := list 0 hash

def bytes : Codec Bytes := list 1 uint8

def words : Codec (List UInt64) := list 8 uint64

end Codec

end FinalityBridge.Scale
