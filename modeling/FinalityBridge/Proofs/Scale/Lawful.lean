import FinalityBridge.Mmr.Leaf
import FinalityBridge.Proofs.Bytes

/-!
# Lawful codecs

A codec is lawful on the values it can write if it reads back every one of them, whatever follows,
and accepts no byte string that it did not write. Main statements: a leaf takes up 113 bytes
(`Leaf.length_encode`), and a byte string is read as a leaf exactly if it is the written form of
that leaf (`Leaf.decode_eq_ok_iff`).
-/

namespace FinalityBridge

namespace Scale.Codec

variable {α β : Type}

/-- A codec that reads what it writes and nothing else. -/
structure Lawful (c : Codec α) (Writable : α → Prop) : Prop where
  decode_encode : ∀ value rest, Writable value → c.decode (c.encode value ++ rest) = .ok (value, rest)
  eq_encode : ∀ bytes value rest, c.decode bytes = .ok (value, rest) →
    Writable value ∧ bytes = c.encode value ++ rest

theorem lawful_fixedBytes (size : Nat) : (fixedBytes size).Lawful fun _ => True where
  decode_encode value rest _ := by
    have hsplit := split?_append value.bytes rest
    rw [value.length_bytes] at hsplit
    simp [fixedBytes, hsplit]
  eq_encode bytes value rest h := by
    simp only [fixedBytes] at h
    split at h
    · rename_i front back hsplit
      rcases eq_append_of_split? hsplit with ⟨hlen, happend⟩
      rw [dif_pos hlen] at h
      cases h
      exact ⟨trivial, happend⟩
    · cases h

theorem lawful_littleEndian (width : Nat) : (littleEndian width).Lawful (· < 256 ^ width) where
  decode_encode n rest hn := by
    have hsplit := split?_append (Bytes.littleEndian width n) rest
    rw [Bytes.length_littleEndian] at hsplit
    simp [littleEndian, hsplit, Bytes.ofLittleEndian_littleEndian hn]
  eq_encode bytes n rest h := by
    simp only [littleEndian] at h
    split at h
    · rename_i front back hsplit
      rcases eq_append_of_split? hsplit with ⟨hlen, happend⟩
      cases h
      subst hlen
      refine ⟨Bytes.ofLittleEndian_lt front, ?_⟩
      show bytes = Bytes.littleEndian front.length (Bytes.ofLittleEndian front) ++ rest
      rw [Bytes.littleEndian_ofLittleEndian, happend]
    · cases h

-- Another view of the same values is lawful on the views of the writable values.
theorem Lawful.map {c : Codec α} {Writable : α → Prop} {Viewed : β → Prop} {view : α → β}
    {back : β → α} (hc : c.Lawful Writable) (hback : ∀ b, Viewed b → Writable (back b))
    (hview : ∀ a, Writable a → Viewed (view a)) (hleft : ∀ b, Viewed b → view (back b) = b)
    (hright : ∀ a, Writable a → back (view a) = a) : (c.map view back).Lawful Viewed where
  decode_encode b rest hb := by
    simp only [Codec.map, hc.decode_encode _ rest (hback b hb), hleft b hb]
  eq_encode bytes b rest h := by
    simp only [Codec.map] at h
    split at h
    · rename_i a back' hdecode
      rcases hc.eq_encode _ _ _ hdecode with ⟨ha, hbytes⟩
      cases h
      refine ⟨hview a ha, ?_⟩
      show bytes = c.encode (back (view a)) ++ rest
      rw [hright a ha, hbytes]
    · cases h

theorem Lawful.pair {c : Codec α} {d : Codec β} {P : α → Prop} {Q : β → Prop} (hc : c.Lawful P)
    (hd : d.Lawful Q) : (c.pair d).Lawful fun value => P value.1 ∧ Q value.2 where
  decode_encode value rest hvalue := by
    have hfirst := hc.decode_encode value.1 (d.encode value.2 ++ rest) hvalue.1
    have hsecond := hd.decode_encode value.2 rest hvalue.2
    simp only [Codec.pair, List.append_assoc, hfirst, hsecond]
  eq_encode bytes value rest h := by
    simp only [Codec.pair] at h
    split at h
    · cases h
    · rename_i first middle hfirst
      split at h
      · cases h
      · rename_i second back hsecond
        rcases hc.eq_encode _ _ _ hfirst with ⟨hp, hbytes⟩
        rcases hd.eq_encode _ _ _ hsecond with ⟨hq, hmiddle⟩
        cases h
        refine ⟨⟨hp, hq⟩, ?_⟩
        show bytes = c.encode first ++ d.encode second ++ rest
        rw [hbytes, hmiddle, List.append_assoc]

theorem Lawful.field {c : Codec α} {Writable : α → Prop} (name : String) (hc : c.Lawful Writable) :
    (c.field name).Lawful Writable where
  decode_encode value rest hvalue := by
    simp only [Codec.field, hc.decode_encode value rest hvalue]
  eq_encode bytes value rest h := by
    simp only [Codec.field] at h
    split at h
    · cases h
    · rename_i reading hdecode
      cases h
      exact hc.eq_encode _ _ _ hdecode

theorem lawful_uint8 : uint8.Lawful fun _ => True :=
  (lawful_littleEndian 1).map (fun n _ => by simpa using n.toNat_lt) (fun _ _ => trivial)
    (fun n _ => by simp) (fun n hn => by simpa using Nat.mod_eq_of_lt hn)

theorem lawful_uint32 : uint32.Lawful fun _ => True :=
  (lawful_littleEndian 4).map (fun n _ => by simpa using n.toNat_lt) (fun _ _ => trivial)
    (fun n _ => by simp) (fun n hn => by simpa using Nat.mod_eq_of_lt hn)

theorem lawful_uint64 : uint64.Lawful fun _ => True :=
  (lawful_littleEndian 8).map (fun n _ => by simpa using n.toNat_lt) (fun _ _ => trivial)
    (fun n _ => by simp) (fun n hn => by simpa using Nat.mod_eq_of_lt hn)

theorem lawful_hash : hash.Lawful fun _ => True := lawful_fixedBytes 32

-- Reading to the end of a byte string accepts exactly the written forms.
theorem Lawful.decodeAll_eq_ok_iff {c : Codec α} {Writable : α → Prop} (hc : c.Lawful Writable)
    {bytes : Bytes} {value : α} :
    c.decodeAll bytes = .ok value ↔ Writable value ∧ bytes = c.encode value := by
  constructor
  · intro h
    simp only [decodeAll] at h
    split at h
    · rename_i read hdecode
      cases h
      have hread := hc.eq_encode _ _ _ hdecode
      rwa [List.append_nil] at hread
    · cases h
    · cases h
  · rintro ⟨hvalue, rfl⟩
    have hdecode := hc.decode_encode value [] hvalue
    rw [List.append_nil] at hdecode
    simp only [decodeAll, hdecode]

end Scale.Codec

open Scale Codec

theorem LeafVersion.lawful_codec : LeafVersion.codec.Lawful fun _ => True :=
  (lawful_uint8.field _).map (fun _ _ => trivial) (fun _ _ => trivial) (fun _ _ => rfl)
    (fun _ _ => rfl)

theorem NextAuthoritySet.lawful_codec : NextAuthoritySet.codec.Lawful fun _ => True :=
  ((lawful_uint64.field _).pair ((lawful_uint32.field _).pair (lawful_hash.field _))).map
    (fun _ _ => ⟨trivial, trivial, trivial⟩) (fun _ _ => trivial) (fun _ _ => rfl) (fun _ _ => rfl)

namespace Leaf

theorem lawful_codec : Leaf.codec.Lawful fun _ => True :=
  ((LeafVersion.lawful_codec.field _).pair
    (((lawful_uint32.pair lawful_hash).field _).pair
      ((lawful_hash.field _).pair (NextAuthoritySet.lawful_codec.field _)))).map
    (fun _ _ => ⟨trivial, ⟨trivial, trivial⟩, trivial, trivial⟩) (fun _ _ => trivial)
    (fun _ _ => rfl) (fun _ _ => rfl)

/-- Every leaf is written in 113 bytes. -/
theorem length_encode (leaf : Leaf) : leaf.encode.length = 113 := by
  simp [encode, codec, LeafVersion.codec, NextAuthoritySet.codec, Codec.map, Codec.pair, Codec.field,
    uint8, uint32, uint64, Codec.hash, littleEndian, fixedBytes]

/-- A byte string is read as a leaf exactly if it is what the leaf is written as. -/
theorem decode_eq_ok_iff {encoded : Bytes} {leaf : Leaf} :
    decode encoded = .ok leaf ↔ encoded = leaf.encode := by
  have hall : codec.decodeAll encoded = .ok leaf ↔ encoded = leaf.encode := by
    rw [lawful_codec.decodeAll_eq_ok_iff, true_and, encode]
  rw [← hall, decode]
  cases codec.decodeAll encoded with
  | ok read => simp
  | error e => simp

end Leaf

end FinalityBridge
