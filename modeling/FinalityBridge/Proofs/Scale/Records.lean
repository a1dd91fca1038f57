import FinalityBridge.Commitment
import FinalityBridge.Mmr.Inclusion
import FinalityBridge.Proofs.Bitfield.Positions
import FinalityBridge.Proofs.Scale.Lists
import FinalityBridge.Session.Basic
import FinalityBridge.Signature

/-!
# Records on the wire

Every record is read back from what it is written as, whatever follows, and no byte string is read as
a record but what the record is written as (`records_roundTrip`). So a digest of a written record is a
digest of the record. Words and a length are read as a bitfield only if there are as many words as the
length needs and no bit beyond it (`Bitfield.exists_decode_iff`), and every byte string of 113 bytes
is read as a leaf (`Leaf.exists_decode_iff`).
-/

namespace FinalityBridge

open Scale Codec

namespace Scale.Codec

variable {α β : Type} {c : Codec α} {d : Codec β}

/-! ## Values of a known size -/

/-- Values that are read from any `size` bytes. -/
def Sized (c : Codec α) (size : Nat) : Prop :=
  ∀ bytes : Bytes, size ≤ bytes.length →
    ∃ value rest, c.decode bytes = .ok (value, rest) ∧ rest.length + size = bytes.length

theorem split?_of_le {n : Nat} {bytes : Bytes} (h : n ≤ bytes.length) :
    split? n bytes = some (bytes.take n, bytes.drop n) := by
  have hsplit := split?_append (bytes.take n) (bytes.drop n)
  rwa [List.take_append_drop, List.length_take, Nat.min_eq_left h] at hsplit

theorem sized_fixedBytes (size : Nat) : (fixedBytes size).Sized size := by
  intro bytes h
  have hlength : (bytes.take size).length = size := by
    rw [List.length_take]
    omega
  refine ⟨⟨bytes.take size, hlength⟩, bytes.drop size, ?_, ?_⟩
  · simp only [fixedBytes, split?_of_le h, dif_pos hlength]
  · rw [List.length_drop]
    omega

theorem sized_littleEndian (width : Nat) : (littleEndian width).Sized width := by
  intro bytes h
  refine ⟨Bytes.ofLittleEndian (bytes.take width), bytes.drop width, ?_, ?_⟩
  · simp only [littleEndian, split?_of_le h]
  · rw [List.length_drop]
    omega

theorem Sized.map {size : Nat} (hc : c.Sized size) (view : α → β) (back : β → α) :
    (c.map view back).Sized size := by
  intro bytes h
  obtain ⟨value, rest, hdecode, hrest⟩ := hc bytes h
  exact ⟨view value, rest, by simp only [Codec.map, hdecode], hrest⟩

theorem Sized.field {size : Nat} (hc : c.Sized size) (name : String) : (c.field name).Sized size := by
  intro bytes h
  obtain ⟨value, rest, hdecode, hrest⟩ := hc bytes h
  exact ⟨value, rest, by simp only [Codec.field, hdecode], hrest⟩

theorem Sized.pair {m n : Nat} (hc : c.Sized m) (hd : d.Sized n) : (c.pair d).Sized (m + n) := by
  intro bytes h
  obtain ⟨first, middle, hfirst, hmiddle⟩ := hc bytes (by omega)
  obtain ⟨second, rest, hsecond, hrest⟩ := hd middle (by omega)
  exact ⟨(first, second), rest, by simp only [Codec.pair, hfirst, hsecond], by omega⟩

theorem sized_uint32 : uint32.Sized 4 := (sized_littleEndian 4).map _ _

theorem sized_uint64 : uint64.Sized 8 := (sized_littleEndian 8).map _ _

theorem sized_hash : hash.Sized 32 := sized_fixedBytes 32

/-! ## Round trips -/

/-- The values that can be written are read back, whatever follows. What is read off the front of a
byte string, be it `count` bytes long, is what the value is written as. Reading all of a byte string
is reading off its front with nothing left. -/
structure RoundTrips (c : Codec α) (Writable : α → Prop) : Prop where
  decode_encode : ∀ value rest, Writable value → c.decode (c.encode value ++ rest) = .ok (value, rest)
  encode_eq_take : ∀ bytes value rest, c.decode bytes = .ok (value, rest) →
    Writable value ∧ ∃ count ≤ bytes.length, c.encode value = bytes.take count ∧
      rest = bytes.drop count
  decodeAll_eq_ok_iff : ∀ bytes value,
    c.decodeAll bytes = .ok value ↔ c.decode bytes = .ok (value, [])

theorem decodeAll_eq_ok_iff_decode (c : Codec α) (bytes : Bytes) (value : α) :
    c.decodeAll bytes = .ok value ↔ c.decode bytes = .ok (value, []) := by
  unfold decodeAll
  match c.decode bytes with
  | .ok (read, []) => simp
  | .ok (read, b :: rest) => simp
  | .error e => simp

theorem Lawful.roundTrips {Writable : α → Prop} (hc : c.Lawful Writable) : c.RoundTrips Writable where
  decode_encode := hc.decode_encode
  encode_eq_take bytes value rest h := by
    obtain ⟨hvalue, rfl⟩ := hc.eq_encode bytes value rest h
    refine ⟨hvalue, (c.encode value).length, ?_, ?_, ?_⟩
    · rw [List.length_append]
      omega
    · rw [List.take_left]
    · rw [List.drop_left]
  decodeAll_eq_ok_iff := decodeAll_eq_ok_iff_decode c

end Scale.Codec

/-! ## Bitfields -/

namespace Bitfield

theorem length_words_lt (b : Bitfield) : b.words.length < 2 ^ 32 := by
  have hlen := b.len.toNat_lt
  rw [b.length_words, wordsFor]
  omega

theorem encode_eq (b : Bitfield) :
    codec.encode b = (Codec.words.pair Codec.uint32).encode (b.words, b.len) := rfl

theorem lawful_codec : codec.Lawful fun _ => True where
  decode_encode b rest _ := by
    have hread := (lawful_words.pair lawful_uint32).decode_encode (b.words, b.len) rest
      ⟨b.length_words_lt, trivial⟩
    simp only [codec, hread, b.length_words, ofWords_words, if_neg (Nat.lt_irrefl _), if_true]
  eq_encode bytes b rest h := by
    simp only [codec] at h
    split at h
    · cases h
    · rename_i words len back hread
      obtain ⟨-, rfl⟩ := (lawful_words.pair lawful_uint32).eq_encode _ _ _ hread
      split at h
      · cases h
      · split at h
        · cases h
        · split at h
          · rename_i read hofWords
            split at h
            · rename_i hwords
              cases h
              have hlen := (ofWords_spec hofWords).1
              exact ⟨trivial, by rw [encode_eq, hwords, hlen]⟩
            · cases h
          · cases h

/-- Words and a length are read as a bitfield exactly if there are as many words as the length needs
and no bit is set beyond it. -/
theorem exists_decode_iff {words : List UInt64} {len : UInt32} (hwords : words.length < 2 ^ 32)
    (rest : Bytes) :
    (∃ b, codec.decode ((Codec.words.pair Codec.uint32).encode (words, len) ++ rest) = .ok (b, rest)) ↔
      words.length = wordsFor len.toNat ∧ ∀ p, len.toNat ≤ p → bit words p = false := by
  constructor
  · rintro ⟨b, hdecode⟩
    -- The same bytes write the words and length of the bitfield, so these are the given ones.
    have hbytes := (lawful_codec.eq_encode _ _ _ hdecode).2
    have hgiven := (lawful_words.pair lawful_uint32).decode_encode (words, len) rest ⟨hwords, trivial⟩
    have hread := (lawful_words.pair lawful_uint32).decode_encode (b.words, b.len) rest
      ⟨b.length_words_lt, trivial⟩
    rw [encode_eq] at hbytes
    rw [← hbytes, hgiven] at hread
    cases hread
    exact ⟨b.length_words, b.bit_eq_false⟩
  · rintro ⟨hlength, hbits⟩
    have hdecode := lawful_codec.decode_encode ⟨words, len, hlength, hbits⟩ rest trivial
    rw [encode_eq] at hdecode
    exact ⟨_, hdecode⟩

end Bitfield

/-! ## The other records -/

theorem Commitment.lawful_codec : Commitment.codec.Lawful fun _ => True :=
  ((lawful_hash.field _).pair ((lawful_uint64.field _).pair (lawful_uint64.field _))).map
    (fun _ _ => ⟨trivial, trivial, trivial⟩) (fun _ _ => trivial) (fun _ _ => rfl) (fun _ _ => rfl)

theorem ValidatorSet.lawful_codec : ValidatorSet.codec.Lawful fun _ => True :=
  ((lawful_hash.field _).pair ((lawful_uint32.field _).pair (lawful_uint64.field _))).map
    (fun _ _ => ⟨trivial, trivial, trivial⟩) (fun _ _ => trivial) (fun _ _ => rfl) (fun _ _ => rfl)

theorem MembershipProof.lawful_codec :
    MembershipProof.codec.Lawful fun proof => proof.siblings.length < 2 ^ 32 :=
  ((lawful_address.field _).pair ((lawful_uint32.field _).pair (lawful_hashes.field _))).map
    (fun _ hproof => ⟨trivial, trivial, hproof⟩) (fun _ hfields => hfields.2.2) (fun _ _ => rfl)
    (fun _ _ => rfl)

theorem Signature.lawful_codec : Signature.codec.Lawful fun _ => True :=
  ((lawful_hash.field _).pair ((lawful_hash.field _).pair (lawful_uint8.field _))).map
    (fun _ _ => ⟨trivial, trivial, trivial⟩) (fun _ _ => trivial) (fun _ _ => rfl) (fun _ _ => rfl)

theorem SessionId.lawful_codec : SessionId.codec.Lawful fun _ => True :=
  (lawful_uint64.field _).map (fun _ _ => trivial) (fun _ _ => trivial) (fun _ _ => rfl)
    (fun _ _ => rfl)

theorem InclusionProof.lawful_codec :
    InclusionProof.codec.Lawful fun proof => proof.items.length < 2 ^ 32 :=
  ((lawful_uint64.field _).pair ((lawful_uint64.field _).pair (lawful_hashes.field _))).map
    (fun _ hproof => ⟨trivial, trivial, hproof⟩) (fun _ hfields => hfields.2.2) (fun _ _ => rfl)
    (fun _ _ => rfl)

namespace Leaf

theorem sized_codec : Leaf.codec.Sized 113 := by
  have hversion : LeafVersion.codec.Sized 1 := (((sized_littleEndian 1).map _ _).field _).map _ _
  have hnext : NextAuthoritySet.codec.Sized 44 :=
    ((sized_uint64.field _).pair ((sized_uint32.field _).pair (sized_hash.field _))).map _ _
  exact ((hversion.field _).pair (((sized_uint32.pair sized_hash).field _).pair
    ((sized_hash.field _).pair (hnext.field _)))).map _ _

/-- The byte strings that are read as leaves are those of 113 bytes. -/
theorem exists_decode_iff {encoded : Bytes} :
    (∃ leaf, decode encoded = .ok leaf) ↔ encoded.length = 113 := by
  constructor
  · rintro ⟨leaf, hdecode⟩
    rw [decode_eq_ok_iff.1 hdecode, length_encode]
  · intro hlength
    obtain ⟨leaf, rest, hdecode, hrest⟩ := sized_codec encoded (Nat.le_of_eq hlength.symm)
    obtain rfl : rest = [] := List.length_eq_zero_iff.1 (by omega)
    have hall := (decodeAll_eq_ok_iff_decode codec encoded leaf).2 hdecode
    refine ⟨leaf, ?_⟩
    rw [decode, hall]

end Leaf

/-! ## All records -/

/-- All records make the round trip both ways, so none has two written forms. A bitfield is read only
from the words that its length needs, without a bit beyond it. A leaf is read from the bytes that it is
written as, which are any 113 bytes, and the digest of these bytes is that of the written leaf. -/
theorem records_roundTrip :
    Bitfield.codec.RoundTrips (fun _ => True) ∧
    Commitment.codec.RoundTrips (fun _ => True) ∧
    ValidatorSet.codec.RoundTrips (fun _ => True) ∧
    MembershipProof.codec.RoundTrips (fun proof => proof.siblings.length < 2 ^ 32) ∧
    Signature.codec.RoundTrips (fun _ => True) ∧
    SessionId.codec.RoundTrips (fun _ => True) ∧
    LeafVersion.codec.RoundTrips (fun _ => True) ∧
    NextAuthoritySet.codec.RoundTrips (fun _ => True) ∧
    Leaf.codec.RoundTrips (fun _ => True) ∧
    InclusionProof.codec.RoundTrips (fun proof => proof.items.length < 2 ^ 32) ∧
    (∀ (words : List UInt64) (len : UInt32) (rest : Bytes), words.length < 2 ^ 32 →
      ((∃ b, Bitfield.codec.decode ((Codec.words.pair Codec.uint32).encode (words, len) ++ rest) =
          .ok (b, rest)) ↔
        words.length = (len.toNat + 63) / 64 ∧ ∀ p, len.toNat ≤ p → Bitfield.bit words p = false)) ∧
    (∀ encoded leaf, Leaf.decode encoded = .ok leaf →
      Leaf.digest encoded = Leaf.digest leaf.encode) ∧
    (∀ encoded leaf, Leaf.decode encoded = .ok leaf ↔ encoded = leaf.encode) ∧
    ∀ encoded, (∃ leaf, Leaf.decode encoded = .ok leaf) ↔ encoded.length = 113 := by
  refine ⟨Bitfield.lawful_codec.roundTrips, Commitment.lawful_codec.roundTrips,
    ValidatorSet.lawful_codec.roundTrips, MembershipProof.lawful_codec.roundTrips,
    Signature.lawful_codec.roundTrips, SessionId.lawful_codec.roundTrips,
    LeafVersion.lawful_codec.roundTrips, NextAuthoritySet.lawful_codec.roundTrips,
    Leaf.lawful_codec.roundTrips, InclusionProof.lawful_codec.roundTrips, ?_, ?_, ?_, ?_⟩
  · intro words len rest hwords
    exact Bitfield.exists_decode_iff hwords rest
  · intro encoded leaf hdecode
    rw [Leaf.decode_eq_ok_iff.1 hdecode]
  · intro encoded leaf
    exact Leaf.decode_eq_ok_iff
  · intro encoded
    exact Leaf.exists_decode_iff

theorem sample_roundTrip :
    MembershipProof.codec.decode (MembershipProof.codec.encode ⟨.zero, 2, [.zero]⟩ ++ [7]) =
      .ok (⟨.zero, 2, [.zero]⟩, [7]) ∧
    (¬∃ b, Bitfield.codec.decode ((Codec.words.pair Codec.uint32).encode ([8], 3) ++ []) =
      .ok (b, [])) ∧
    ∃ leaf, Leaf.decode (List.replicate 113 0) = .ok leaf ∧
      Leaf.digest (List.replicate 113 0) = Leaf.digest leaf.encode := by
  obtain ⟨-, -, -, hproof, -, -, -, -, -, -, hbits, hdigest, -, hleaf⟩ := records_roundTrip
  refine ⟨hproof.decode_encode _ _ (by decide), ?_, ?_⟩
  · rw [hbits [8] 3 [] (by decide)]
    rintro ⟨-, hclear⟩
    exact absurd (hclear 3 (by decide)) (by decide)
  · obtain ⟨leaf, hdecode⟩ := (hleaf (List.replicate 113 0)).2 List.length_replicate
    exact ⟨leaf, hdecode, hdigest _ _ hdecode⟩

end FinalityBridge
