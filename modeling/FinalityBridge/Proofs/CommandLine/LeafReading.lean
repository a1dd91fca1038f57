import FinalityBridge.Proofs.CommandLine.Inclusion

/-!
# Reading leaves

The tool reads a leaf from the bytes that it is written as, or from these wrapped into a list of bytes.
Bytes that are not wrapped it reads to their end. Of wrapped ones it reads the wrapping and, to its end,
what is inside, but leaves alone what follows, so that a leaf is read from many byte strings
(`reads_leaf`).
-/

namespace FinalityBridge.CommandLine

open Report Scale

/-- The bytes of a leaf, which may be wrapped into a list of bytes. -/
def leafData (wrapped : Bool) (leaf : Leaf) : Bytes :=
  if wrapped then Codec.bytes.encode leaf.encode else leaf.encode

theorem decode_wrapped (leaf : Leaf) (rest : Bytes) :
    Codec.bytes.decode (leafData true leaf ++ rest) = .ok (leaf.encode, rest) := by
  apply Codec.lawful_bytes.decode_encode
  rw [Leaf.length_encode]
  decide

-- No wrapped leaf is another one with bytes after it.
theorem eq_nil_of_wrapped_append {leaf other : Leaf} {rest : Bytes}
    (h : leafData true leaf ++ rest = leafData true other) : rest = [] := by
  have hrest := decode_wrapped leaf rest
  rw [h, ← List.append_nil (leafData true other), decode_wrapped, Except.ok.injEq, Prod.mk.injEq] at hrest
  exact hrest.2.symm

/-! ## Reading -/

variable {wrapped : Bool} {data : Bytes} {output : String}

theorem decodeLeaf_unwrapped_eq_ok_iff :
    decodeLeaf data false = .ok output ↔ ∃ leaf : Leaf, data = leaf.encode ∧ output = shownText leaf := by
  simp only [decodeLeaf, Bool.false_eq_true, if_false, bind, Except.bind]
  constructor
  · intro h
    split at h
    · cases h
    · rename_i leaf hdecode
      obtain rfl := Leaf.decode_eq_ok_iff.1 hdecode
      exact ⟨leaf, rfl, (Except.ok.inj h).symm⟩
  · rintro ⟨leaf, rfl, rfl⟩
    rw [Leaf.decode_eq_ok_iff.2 (Eq.refl leaf.encode)]
    rfl

-- Inside its wrapping a leaf is read like one that has none.
theorem decodeLeaf_wrapped (data : Bytes) :
    decodeLeaf data true =
      match Codec.bytes.decode data with
      | .error cause => .error (.encoding cause)
      | .ok (inner, _) => decodeLeaf inner false := by
  simp only [decodeLeaf, if_true]
  cases Codec.bytes.decode data <;> rfl

theorem decodeLeaf_wrapped_eq_ok_iff :
    decodeLeaf data true = .ok output ↔
      ∃ leaf rest, data = leafData true leaf ++ rest ∧ output = shownText leaf := by
  rw [decodeLeaf_wrapped]
  constructor
  · intro h
    split at h
    · cases h
    · rename_i inner rest hread
      obtain ⟨-, rfl⟩ := Codec.lawful_bytes.eq_encode _ _ _ hread
      obtain ⟨leaf, rfl, houtput⟩ := decodeLeaf_unwrapped_eq_ok_iff.1 h
      exact ⟨leaf, rest, rfl, houtput⟩
  · rintro ⟨leaf, rest, rfl, rfl⟩
    rw [decode_wrapped]
    exact decodeLeaf_unwrapped_eq_ok_iff.2 ⟨leaf, rfl, rfl⟩

theorem decodeLeaf_eq_ok_iff :
    decodeLeaf data wrapped = .ok output ↔
      ∃ leaf rest, data = leafData wrapped leaf ++ rest ∧ (wrapped = false → rest = []) ∧
        output = shownText leaf := by
  cases wrapped with
  | false =>
    rw [decodeLeaf_unwrapped_eq_ok_iff]
    constructor
    · rintro ⟨leaf, rfl, houtput⟩
      exact ⟨leaf, [], (List.append_nil _).symm, fun _ => rfl, houtput⟩
    · rintro ⟨leaf, rest, rfl, hrest, houtput⟩
      rw [hrest rfl]
      exact ⟨leaf, List.append_nil _, houtput⟩
  | true =>
    rw [decodeLeaf_wrapped_eq_ok_iff]
    simp only [Bool.true_eq_false, false_implies, true_and]

/-! ## The tool -/

variable {parts : List Part}

/-- A leaf is shown for its bytes, wrapped as announced, and for no others. -/
def ReadsOnlyLeaves (parts : List Part) (wrapped : Bool) (data : Bytes) : Prop :=
  ∀ output, respond ("mmr" :: "decode-leaf" :: wordsOf parts) = .ok ⟨output, none⟩ ↔
    ∃ leaf, data = leafData wrapped leaf ∧ output = shownText leaf

theorem respond_decodeLeaf_eq_iff (h : SpellsLeafData (argumentsOf parts) wrapped data) :
    respond ("mmr" :: "decode-leaf" :: wordsOf parts) = .ok ⟨output, none⟩ ↔
      ∃ leaf rest, data = leafData wrapped leaf ++ rest ∧ (wrapped = false → rest = []) ∧
        output = shownText leaf := by
  rw [respond_of_parse (parse_decodeLeaf h), Except.ok.injEq]
  show Report.ofExcept (decodeLeaf data wrapped) = _ ↔ _
  rw [ofExcept_eq_iff, decodeLeaf_eq_ok_iff]

theorem readsOnlyLeaves_iff (h : SpellsLeafData (argumentsOf parts) wrapped data) :
    ReadsOnlyLeaves parts wrapped data ↔
      ∀ leaf rest, wrapped = true → data = leafData true leaf ++ rest → rest = [] := by
  constructor
  · rintro honly leaf rest rfl rfl
    have hshown := (respond_decodeLeaf_eq_iff h).2 ⟨leaf, rest, rfl, nofun, rfl⟩
    obtain ⟨other, hdata, -⟩ := (honly (shownText leaf)).1 hshown
    exact eq_nil_of_wrapped_append hdata
  · intro hnothing output
    rw [respond_decodeLeaf_eq_iff h]
    constructor
    · rintro ⟨leaf, rest, rfl, hrest, houtput⟩
      have hnil : rest = [] := by
        cases wrapped with
        | false => exact hrest rfl
        | true => exact hnothing leaf rest rfl rfl
      subst hnil
      exact ⟨leaf, List.append_nil _, houtput⟩
    · rintro ⟨leaf, rfl, houtput⟩
      exact ⟨leaf, [], (List.append_nil _).symm, fun _ => rfl, houtput⟩

/-- The fields of a leaf and its digest are shown for the bytes of the leaf, after which bytes may follow
only if they are wrapped, and whatever else is spelled is an error. So leaves are read from their bytes only, except
where bytes follow a wrapped leaf. -/
theorem reads_leaf (h : SpellsLeafData (argumentsOf parts) wrapped data) :
    (∀ output, respond ("mmr" :: "decode-leaf" :: wordsOf parts) = .ok ⟨output, none⟩ ↔
      ∃ leaf rest, data = leafData wrapped leaf ++ rest ∧ (wrapped = false → rest = []) ∧
        output = shownText leaf ∧ ∀ shown, PrintsLeaf output shown ↔ shown = leaf) ∧
    ((∃ output, respond ("mmr" :: "decode-leaf" :: wordsOf parts) = .ok ⟨output, none⟩) ∨
      ∃ failure, respond ("mmr" :: "decode-leaf" :: wordsOf parts) = .ok ⟨"", some failure⟩) ∧
    (ReadsOnlyLeaves parts wrapped data ↔
      ∀ leaf rest, wrapped = true → data = leafData true leaf ++ rest → rest = []) := by
  refine ⟨fun output => ?_, ?_, readsOnlyLeaves_iff h⟩
  · rw [respond_decodeLeaf_eq_iff h]
    constructor
    · rintro ⟨leaf, rest, hdata, hrest, rfl⟩
      exact ⟨leaf, rest, hdata, hrest, rfl, fun _ => printsLeaf_shownText_iff⟩
    · rintro ⟨leaf, rest, hdata, hrest, houtput, -⟩
      exact ⟨leaf, rest, hdata, hrest, houtput⟩
  · rw [respond_of_parse (parse_decodeLeaf h)]
    show (∃ output, Except.ok (Report.ofExcept (decodeLeaf data wrapped)) = _) ∨
      ∃ failure, Except.ok (Report.ofExcept (decodeLeaf data wrapped)) = _
    cases decodeLeaf data wrapped with
    | error failure => exact .inr ⟨failure, rfl⟩
    | ok output => exact .inl ⟨output, rfl⟩

-- Bytes of a wrapped leaf, after which the given bytes follow.
def sampleData (rest : Bytes) : Bytes := leafData true sampleLeaf ++ rest

def sampleDataParts (rest : Bytes) : List Part :=
  [.positional (Hex.render (sampleData rest)), .flag "wrapped"]

theorem spellsLeafData_sample (rest : Bytes) :
    SpellsLeafData (argumentsOf (sampleDataParts rest)) true (sampleData rest) :=
  ⟨⟨_, rfl, Hex.spells_render _⟩, rfl, rfl⟩

theorem reads_wrapped_sample :
    SpellsLeafData (argumentsOf (sampleDataParts [])) true (sampleData []) ∧
    ReadsOnlyLeaves (sampleDataParts []) true (sampleData []) ∧
    respond ["mmr", "decode-leaf", Hex.render (leafData true sampleLeaf), "--wrapped"] =
      .ok ⟨sampleLine ++ "\nLeaf hash: " ++ hex (Leaf.digest sampleLeaf.encode) ++ "\n", none⟩ := by
  have hspells := spellsLeafData_sample []
  obtain ⟨hshows, -, honly⟩ := reads_leaf hspells
  refine ⟨hspells, honly.2 ?_, ?_⟩
  · intro leaf rest _ hdata
    rw [sampleData, List.append_nil] at hdata
    exact eq_nil_of_wrapped_append hdata.symm
  · have hshown := (hshows (shownText sampleLeaf)).2
      ⟨sampleLeaf, [], rfl, nofun, rfl, fun _ => printsLeaf_shownText_iff⟩
    rwa [show wordsOf (sampleDataParts []) = [Hex.render (leafData true sampleLeaf ++ []), "--wrapped"]
      from rfl, List.append_nil, shownText_sample] at hshown

/-- A single byte after a wrapped leaf is left alone, though the bytes are then those of no leaf. -/
theorem not_reads_only_leaves :
    ¬∀ (parts : List Part) (wrapped : Bool) (data : Bytes),
      SpellsLeafData (argumentsOf parts) wrapped data → ReadsOnlyLeaves parts wrapped data := by
  intro h
  have hspells := spellsLeafData_sample [0]
  have hnil := (readsOnlyLeaves_iff hspells).1 (h _ _ _ hspells) sampleLeaf [0] rfl rfl
  cases hnil

end FinalityBridge.CommandLine
