import FinalityBridge.Proofs.Client.Checks
import FinalityBridge.Proofs.CommandLine.Arguments
import FinalityBridge.Proofs.CommandLine.Printed
import FinalityBridge.Proofs.Mmr.Inclusion
import FinalityBridge.Proofs.Scale.Records

/-!
# Leaves and inclusion proofs as texts

The tool writes a leaf and shows its digest; from the written leaf it shows the same fields and the
same digest again. In every list of digests that has this digest at some index, what it prints for the
index is what it takes to check that the written leaf is included (`CommandLine.leaf_roundTrip`).
-/

namespace FinalityBridge

/-! ## Versions -/

namespace LeafVersion

-- The components of a version are the quotient and the remainder of its byte.
theorem toNat_components (version : LeafVersion) :
    version.components.1.toNat = version.packed.toNat / 32 ∧
      version.components.2.toNat = version.packed.toNat % 32 := by
  constructor
  · show (version.packed >>> 5).toNat = _
    rw [UInt8.toNat_shiftRight]
    exact Nat.shiftRight_eq_div_pow _ 5
  · show (version.packed &&& 31).toNat = _
    rw [UInt8.toNat_and]
    exact Nat.and_two_pow_sub_one_eq_mod _ 5

theorem toNat_pack (major minor : UInt8) :
    ((major <<< 5) + minor).toNat = (32 * major.toNat + minor.toNat) % 256 := by
  rw [UInt8.toNat_add, UInt8.toNat_shiftLeft]
  show (major.toNat <<< 5 % 2 ^ 8 + minor.toNat) % 2 ^ 8 = _
  rw [Nat.shiftLeft_eq]
  omega

/-- A version is made of its components, and of no others. -/
theorem ofComponents_eq_ok_iff {major minor : UInt8} {version : LeafVersion} :
    ofComponents major minor = .ok version ↔ version.components = (major, minor) := by
  obtain ⟨hmajor, hminor⟩ := version.toNat_components
  have hbyte := version.packed.toNat_lt
  have hpack := toNat_pack major minor
  unfold ofComponents
  rw [ite_else_error_eq_ok_iff, Except.ok.injEq, Prod.ext_iff, ← UInt8.toNat_inj, ← UInt8.toNat_inj,
    hmajor, hminor, Fits, UInt8.le_iff_toNat_le, UInt8.le_iff_toNat_le]
  show (major.toNat ≤ 7 ∧ minor.toNat ≤ 31) ∧ _ ↔
    version.packed.toNat / 32 = major.toNat ∧ version.packed.toNat % 32 = minor.toNat
  constructor
  · rintro ⟨hfits, rfl⟩
    dsimp only
    omega
  · intro h
    have heq : (major <<< 5) + minor = version.packed := by
      apply UInt8.toNat_inj.1
      omega
    rw [heq]
    exact ⟨by omega, rfl⟩

end LeafVersion

namespace CommandLine

open Report

/-! ## Writing a leaf -/

/-- The options that give the fields of a leaf. -/
def leafOptions : List (String × Demand) :=
  [("major", .defaulted), ("minor", .defaulted), ("parent-number", .required),
    ("parent-hash", .required), ("parachain-heads", .required), ("next-set-id", .required),
    ("next-set-len", .required), ("next-set-root", .required)]

/-- The form of the command that writes a leaf. -/
def leafForm : Form := ⟨.exactly 0, leafOptions, []⟩

/-- Arguments that spell the components of a version, which may be left out if they are zero, and the
fields of a leaf but for its version. -/
structure SpellsLeaf (arguments : Arguments) (major minor : Nat) (leaf : Leaf) : Prop where
  positionals : arguments.positionals = []
  major : arguments.GivesOr "major" 0 major
  minor : arguments.GivesOr "minor" 0 minor
  parentNumber : arguments.Gives "parent-number" (Decimal.Spells · leaf.parentNumber.toNat)
  parentHash : arguments.Gives "parent-hash" (Hex.Spells · leaf.parentHash.bytes)
  parachainHeads : arguments.Gives "parachain-heads" (Hex.Spells · leaf.parachainHeads.bytes)
  nextSetId : arguments.Gives "next-set-id" (Decimal.Spells · leaf.nextAuthoritySet.id.toNat)
  nextSetLen : arguments.Gives "next-set-len" (Decimal.Spells · leaf.nextAuthoritySet.len.toNat)
  nextSetRoot : arguments.Gives "next-set-root" (Hex.Spells · leaf.nextAuthoritySet.root.bytes)
  only : arguments.Only (leafOptions.map (·.1))

theorem wellNamed_leafForm : leafForm.WellNamed := by
  constructor <;> decide

variable {parts : List Part} {major minor : Nat} {leaf : Leaf}

theorem SpellsLeaf.fits {arguments : Arguments} (h : SpellsLeaf arguments major minor leaf) :
    leafForm.Fits arguments := by
  apply Form.Fits.of_only h.only
  case hnames => exact fun name hname => hname
  case harity => rw [h.positionals]; rfl
  case hpositional =>
    rw [h.positionals]
    exact List.forall_mem_nil _
  case hdemand =>
    simp only [leafForm, leafOptions, List.forall_mem_cons]
    exact ⟨trivial, trivial, h.parentNumber.admits _, h.parentHash.admits _, h.parachainHeads.admits _,
      h.nextSetId.admits _, h.nextSetLen.admits _, h.nextSetRoot.admits _, List.forall_mem_nil _⟩
  case hvalue =>
    have hdecimal {name : String} {n : Nat} (hgives : arguments.Gives name (Decimal.Spells · n))
        (value : String) (hvalue : some value ∈ arguments.values name) : Text.IsPlain value :=
      hgives.isPlain (fun _ => Decimal.isPlain_of_spells) hvalue
    have hhex {name : String} {bytes : Bytes} (hgives : arguments.Gives name (Hex.Spells · bytes))
        (value : String) (hvalue : some value ∈ arguments.values name) : Text.IsPlain value :=
      hgives.isPlain (fun _ => Hex.isPlain_of_spells) hvalue
    simp only [leafOptions, List.map_cons, List.map_nil, List.forall_mem_cons]
    exact ⟨fun _ => h.major.isPlain, fun _ => h.minor.isPlain, hdecimal h.parentNumber,
      hhex h.parentHash, hhex h.parachainHeads, hdecimal h.nextSetId, hdecimal h.nextSetLen,
      hhex h.nextSetRoot, List.forall_mem_nil _⟩

-- The components of the version are read unless they are too large for a byte.
theorem parse_encodeLeaf (h : SpellsLeaf (argumentsOf parts) major minor leaf) :
    Command.parse ("mmr" :: "encode-leaf" :: wordsOf parts) =
      if 2 ^ 8 ≤ major then .error (.invalidValue "--major <major>" .integerTooLarge)
      else if 2 ^ 8 ≤ minor then .error (.invalidValue "--minor <minor>" .integerTooLarge)
      else .ok (.encodeLeaf (UInt8.ofNat major) (UInt8.ofNat minor) leaf.parentNumber leaf.parentHash
        leaf.parachainHeads leaf.nextAuthoritySet.id leaf.nextAuthoritySet.len
        leaf.nextAuthoritySet.root) := by
  show Command.ofArguments leafForm _ (wordsOf parts) = _
  rw [Command.ofArguments_words wellNamed_leafForm h.fits]
  have hlarge {n : Nat} (hn : 2 ^ 8 ≤ n) (text : String) (htext : Decimal.Spells text.toList n) :
      ValueReader.uint8 text = .error .integerTooLarge :=
    (ValueReader.uint8_of_spells htext).trans (if_neg (Nat.not_lt.2 hn))
  have hsmall {n : Nat} (hn : ¬2 ^ 8 ≤ n) (text : String) (htext : Decimal.Spells text.toList n) :
      ValueReader.uint8 text = .ok (UInt8.ofNat n) :=
    (ValueReader.uint8_of_spells htext).trans (if_pos (Nat.not_le.1 hn))
  have hzero {n : Nat} (hn : n = 0) : (0 : UInt8) = UInt8.ofNat n := by rw [hn]; rfl
  by_cases hmajor : 2 ^ 8 ≤ major
  · rw [if_pos hmajor, h.major.optionD_eq_error (hlarge hmajor) (by omega)]
    rfl
  · rw [if_neg hmajor, h.major.optionD_eq (hsmall hmajor) hzero]
    by_cases hminor : 2 ^ 8 ≤ minor
    · rw [if_pos hminor, h.minor.optionD_eq_error (hlarge hminor) (by omega)]
      rfl
    · rw [if_neg hminor, h.minor.optionD_eq (hsmall hminor) hzero,
        h.parentNumber.option_eq fun _ => ValueReader.uint32_of_spells_toNat,
        h.parentHash.option_eq fun _ => ValueReader.hash_of_spells,
        h.parachainHeads.option_eq fun _ => ValueReader.hash_of_spells,
        h.nextSetId.option_eq fun _ => ValueReader.uint64_of_spells_toNat,
        h.nextSetLen.option_eq fun _ => ValueReader.uint32_of_spells_toNat,
        h.nextSetRoot.option_eq fun _ => ValueReader.hash_of_spells]
      rfl

theorem respond_encodeLeaf (h : SpellsLeaf (argumentsOf parts) major minor leaf) (hmajor : major ≤ 7)
    (hminor : minor ≤ 31) : ∃ version : LeafVersion,
      version.components = (UInt8.ofNat major, UInt8.ofNat minor) ∧
      respond ("mmr" :: "encode-leaf" :: wordsOf parts) =
        .ok ⟨writtenText { leaf with version }.encode, none⟩ := by
  have hfits : LeafVersion.Fits (UInt8.ofNat major) (UInt8.ofNat minor) := by
    rw [LeafVersion.Fits, UInt8.le_iff_toNat_le, UInt8.le_iff_toNat_le,
      UInt8.toNat_ofNat_of_lt' (show major < 256 by omega),
      UInt8.toNat_ofNat_of_lt' (show minor < 256 by omega)]
    exact ⟨hmajor, hminor⟩
  have hguard : ¬(7 < UInt8.ofNat major ∨ 31 < UInt8.ofNat minor) := by
    rw [not_or, UInt8.not_lt, UInt8.not_lt]
    exact hfits
  obtain ⟨version, hversion⟩ : ∃ version,
      LeafVersion.ofComponents (UInt8.ofNat major) (UInt8.ofNat minor) = .ok version :=
    ⟨_, if_pos hfits⟩
  refine ⟨version, LeafVersion.ofComponents_eq_ok_iff.1 hversion, ?_⟩
  unfold respond
  rw [parse_encodeLeaf h, if_neg (by omega), if_neg (by omega)]
  show Except.ok (Report.ofExcept (encodeLeaf _ _ _)) = _
  rw [encodeLeaf, if_neg hguard, hversion]
  rfl

-- Components that do not fit are refused, before a version is made of them.
theorem respond_encodeLeaf_of_lt (h : SpellsLeaf (argumentsOf parts) major minor leaf)
    (hlarge : 7 < major ∨ 31 < minor) :
    respond ("mmr" :: "encode-leaf" :: wordsOf parts) =
      if 2 ^ 8 ≤ major then .error (.invalidValue "--major <major>" .integerTooLarge)
      else if 2 ^ 8 ≤ minor then .error (.invalidValue "--minor <minor>" .integerTooLarge)
      else .ok ⟨"", some (.versionTooBig (UInt8.ofNat major) (UInt8.ofNat minor))⟩ := by
  unfold respond
  rw [parse_encodeLeaf h]
  by_cases hmajor : 2 ^ 8 ≤ major
  · rw [if_pos hmajor, if_pos hmajor]
    rfl
  · rw [if_neg hmajor, if_neg hmajor]
    by_cases hminor : 2 ^ 8 ≤ minor
    · rw [if_pos hminor, if_pos hminor]
      rfl
    · rw [if_neg hminor, if_neg hminor]
      have hguard : 7 < UInt8.ofNat major ∨ 31 < UInt8.ofNat minor := by
        rw [UInt8.lt_iff_toNat_lt, UInt8.lt_iff_toNat_lt,
          UInt8.toNat_ofNat_of_lt' (Nat.not_le.1 hmajor), UInt8.toNat_ofNat_of_lt' (Nat.not_le.1 hminor)]
        exact hlarge
      show Except.ok (Report.ofExcept (encodeLeaf _ _ _)) = _
      rw [encodeLeaf, if_pos hguard]
      rfl

theorem hasLines_writtenText (encoded : Bytes) :
    HasLines (writtenText encoded)
      ["SCALE-encoded leaf: " ++ Hex.render encoded, "Leaf hash: " ++ hex (Leaf.digest encoded)] where
  toList_eq := by
    unfold writtenText
    generalize Leaf.digest encoded = digest
    simp [toString]
  newline_notMem := by
    rw [List.forall_mem_cons, List.forall_mem_singleton]
    exact ⟨newline_notMem_render (by decide) _, newline_notMem_render (by decide) _⟩

-- What is printed for a written leaf.
theorem printed_writtenText (encoded : Bytes) :
    printed? "SCALE-encoded leaf: " (writtenText encoded) = some (Hex.render encoded) ∧
      printed? "Leaf hash: " (writtenText encoded) = some (hex (Leaf.digest encoded)) := by
  have hlines := hasLines_writtenText encoded
  constructor
  · rw [hlines.printed?_eq (by decide)]
    simp [after?, List.dropPrefix?]
  · rw [hlines.printed?_eq (by decide)]
    simp [after?, List.dropPrefix?]

/-! ## Reading a leaf -/

/-- The form of the command that reads a leaf. -/
def leafDataForm : Form := ⟨.exactly 1, [], ["wrapped"]⟩

/-- Arguments that spell a byte string, and say whether a leaf is wrapped in it. -/
structure SpellsLeafData (arguments : Arguments) (wrapped : Bool) (data : Bytes) : Prop where
  positionals : ∃ text, arguments.positionals = [text] ∧ Hex.Spells text.toList data
  options : arguments.options = []
  flags : arguments.flags = if wrapped then ["wrapped"] else []

theorem SpellsLeafData.fits {arguments : Arguments} {wrapped : Bool} {data : Bytes}
    (h : SpellsLeafData arguments wrapped data) : leafDataForm.Fits arguments := by
  obtain ⟨text, hpositionals, hspells⟩ := h.positionals
  constructor
  case arity => rw [hpositionals]; rfl
  case positional =>
    rw [hpositionals]
    exact List.forall_mem_singleton.2 (Hex.isPlain_of_spells hspells)
  case known => rw [h.options]; exact nofun
  case demand => exact List.forall_mem_nil _
  case value => exact nofun
  case flag => rw [h.flags]; cases wrapped <;> simp [leafDataForm]
  case distinct =>
    refine ⟨?_, ?_⟩
    · rw [h.options]
      exact List.nodup_nil
    · rw [h.flags]
      cases wrapped <;> simp

theorem parse_decodeLeaf {wrapped : Bool} {data : Bytes}
    (h : SpellsLeafData (argumentsOf parts) wrapped data) :
    Command.parse ("mmr" :: "decode-leaf" :: wordsOf parts) = .ok (.decodeLeaf data wrapped) := by
  have hform : leafDataForm.WellNamed := by constructor <;> decide
  obtain ⟨text, hpositionals, hspells⟩ := h.positionals
  have htext : (argumentsOf parts).positionals[0]? = some text := by rw [hpositionals]; rfl
  have hflag : (argumentsOf parts).flags.contains "wrapped" = wrapped := by
    rw [h.flags]
    cases wrapped <;> rfl
  show Command.ofArguments leafDataForm _ (wordsOf parts) = _
  rw [Command.ofArguments_words hform h.fits,
    Arguments.positional_of_ok htext (ValueReader.bytes_of_spells hspells), hflag]
  rfl

/-- What is shown of a leaf that is read. -/
def shownText (leaf : Leaf) : String :=
  s!"{leafText leaf}\nLeaf hash: {hex (Leaf.digest leaf.encode)}\n"

/-- The names of the fields of a leaf, in order, each before a text that is read as the value of the
field. -/
inductive PrintsFields : List String → Leaf → Prop
  | intro {leaf : Leaf} {version number parentHash heads id len root : String}
    (hversion : ValueReader.uint8 version = .ok leaf.version.packed)
    (hnumber : ValueReader.uint32 number = .ok leaf.parentNumber)
    (hparentHash : ValueReader.hash parentHash = .ok leaf.parentHash)
    (hheads : ValueReader.hash heads = .ok leaf.parachainHeads)
    (hid : ValueReader.uint64 id = .ok leaf.nextAuthoritySet.id)
    (hlen : ValueReader.uint32 len = .ok leaf.nextAuthoritySet.len)
    (hroot : ValueReader.hash root = .ok leaf.nextAuthoritySet.root) :
    PrintsFields
      ["version", "MmrLeafVersion", version, "parent_number_and_hash", number, parentHash,
        "parachain_heads", heads, "beefy_next_authority_set", "BeefyNextAuthoritySet", "id", id,
        "len", len, "root", root] leaf

/-- An output shows a leaf: the fields on one line, and its digest on another. -/
structure PrintsLeaf (output : String) (leaf : Leaf) : Prop where
  fields : ∃ line, printed? "MmrLeaf " output = some line ∧ PrintsFields (atoms line.toList) leaf
  digest : ∃ text, printed? "Leaf hash: " output = some text ∧
    ValueReader.hash text = .ok (Leaf.digest leaf.encode)

-- Names and texts are those of one leaf only.
theorem PrintsFields.eq {texts : List String} {a b : Leaf} (ha : PrintsFields texts a)
    (hb : PrintsFields texts b) : a = b := by
  obtain ⟨⟨_⟩, _, _, _, ⟨_, _, _⟩⟩ := a
  obtain ⟨⟨_⟩, _, _, _, ⟨_, _, _⟩⟩ := b
  cases ha with
  | intro hversion hnumber hparentHash hheads hid hlen hroot =>
    cases hb with
    | intro hversion' hnumber' hparentHash' hheads' hid' hlen' hroot' =>
      cases hversion.symm.trans hversion'
      cases hnumber.symm.trans hnumber'
      cases hparentHash.symm.trans hparentHash'
      cases hheads.symm.trans hheads'
      cases hid.symm.trans hid'
      cases hlen.symm.trans hlen'
      cases hroot.symm.trans hroot'
      rfl

theorem PrintsLeaf.eq {output : String} {a b : Leaf} (ha : PrintsLeaf output a)
    (hb : PrintsLeaf output b) : a = b := by
  obtain ⟨line, hline, hfields⟩ := ha.fields
  obtain ⟨line', hline', hfields'⟩ := hb.fields
  obtain rfl : line = line' := Option.some.inj (hline.symm.trans hline')
  exact hfields.eq hfields'

/-- The line that shows the fields of a leaf, after its name, by the texts of their values. -/
def fieldsText (version number parentHash heads id len root : String) : String :=
  s!"\x7b version: MmrLeafVersion({version}), parent_number_and_hash: ({number}, {parentHash}), " ++
    s!"parachain_heads: {heads}, beefy_next_authority_set: BeefyNextAuthoritySet \x7b id: {id}, " ++
    s!"len: {len}, root: {root} \x7d \x7d"

section Fields

variable {version number parentHash heads id len root : String} (hversion : IsAtom version)
  (hnumber : IsAtom number) (hparentHash : IsAtom parentHash) (hheads : IsAtom heads)
  (hid : IsAtom id) (hlen : IsAtom len) (hroot : IsAtom root)
include hversion hnumber hparentHash hheads hid hlen hroot

theorem atoms_fieldsText :
    atoms (fieldsText version number parentHash heads id len root).toList =
      ["version", "MmrLeafVersion", version, "parent_number_and_hash", number, parentHash,
        "parachain_heads", heads, "beefy_next_authority_set", "BeefyNextAuthoritySet", "id", id,
        "len", len, "root", root] := by
  -- Every value stands between two marks.
  have htext : (fieldsText version number parentHash heads id len root).toList =
      "\x7b version: MmrLeafVersion".toList ++ '(' :: (version.toList ++ ')' ::
        (", parent_number_and_hash: ".toList ++ '(' :: (number.toList ++ ',' ::
          ([] ++ ' ' :: (parentHash.toList ++ ')' ::
            (", parachain_heads:".toList ++ ' ' :: (heads.toList ++ ',' ::
              (" beefy_next_authority_set: BeefyNextAuthoritySet \x7b id:".toList ++
                ' ' :: (id.toList ++ ',' ::
                  (" len:".toList ++ ' ' :: (len.toList ++ ',' ::
                    (" root:".toList ++ ' ' :: (root.toList ++ ' ' ::
                      "\x7d \x7d".toList))))))))))))) := by
    unfold fieldsText
    simp [toString]
  rw [htext, atoms_append_between rfl rfl hversion, atoms_append_between rfl rfl hnumber,
    atoms_append_between rfl rfl hparentHash, atoms_append_between rfl rfl hheads,
    atoms_append_between rfl rfl hid, atoms_append_between rfl rfl hlen,
    atoms_append_between rfl rfl hroot]
  rfl

theorem newline_notMem_fieldsText :
    '\n' ∉ (fieldsText version number parentHash heads id len root).toList := by
  unfold fieldsText
  simp [toString, hversion.newline_notMem, hnumber.newline_notMem,
    hparentHash.newline_notMem, hheads.newline_notMem, hid.newline_notMem, hlen.newline_notMem,
    hroot.newline_notMem]

end Fields

-- On its line a leaf is shown by its name and by the values of its fields.
theorem exists_leafText_eq (leaf : Leaf) : ∃ line, leafText leaf = "MmrLeaf " ++ line ∧
    '\n' ∉ line.toList ∧ PrintsFields (atoms line.toList) leaf := by
  have hversion : IsAtom (toString leaf.version.packed) := isAtom_toString _
  have hnumber : IsAtom (toString leaf.parentNumber) := isAtom_toString _
  have hparentHash : IsAtom (hex leaf.parentHash) := isAtom_render _
  have hheads : IsAtom (hex leaf.parachainHeads) := isAtom_render _
  have hid : IsAtom (toString leaf.nextAuthoritySet.id) := isAtom_toString _
  have hlen : IsAtom (toString leaf.nextAuthoritySet.len) := isAtom_toString _
  have hroot : IsAtom (hex leaf.nextAuthoritySet.root) := isAtom_render _
  refine ⟨_, ?_, newline_notMem_fieldsText hversion hnumber hparentHash hheads hid hlen hroot, ?_⟩
  · unfold leafText fieldsText
    simp [← String.toList_inj, toString]
  · rw [atoms_fieldsText hversion hnumber hparentHash hheads hid hlen hroot]
    exact .intro (ValueReader.uint8_of_spells_toNat (Decimal.spells_toString _))
      (ValueReader.uint32_of_spells_toNat (Decimal.spells_toString _))
      (ValueReader.hash_of_spells (Hex.spells_render _))
      (ValueReader.hash_of_spells (Hex.spells_render _))
      (ValueReader.uint64_of_spells_toNat (Decimal.spells_toString _))
      (ValueReader.uint32_of_spells_toNat (Decimal.spells_toString _))
      (ValueReader.hash_of_spells (Hex.spells_render _))

/-- What is shown of a leaf is read back as this leaf, and its digest as the digest. -/
theorem printsLeaf_shownText (leaf : Leaf) : PrintsLeaf (shownText leaf) leaf ∧
    printed? "Leaf hash: " (shownText leaf) = some (hex (Leaf.digest leaf.encode)) := by
  obtain ⟨fields, hname, hbreak, hfields⟩ := exists_leafText_eq leaf
  have hlines : HasLines (shownText leaf)
      ["MmrLeaf " ++ fields, "Leaf hash: " ++ hex (Leaf.digest leaf.encode)] := by
    constructor
    case toList_eq =>
      rw [shownText, hname]
      generalize Leaf.digest leaf.encode = digest
      simp [toString]
    case newline_notMem =>
      rw [List.forall_mem_cons, List.forall_mem_singleton]
      exact ⟨newline_notMem_append (by decide) hbreak, newline_notMem_render (by decide) _⟩
  have hfound : printed? "MmrLeaf " (shownText leaf) = some fields := by
    rw [hlines.printed?_eq (by decide)]
    simp [after?, List.dropPrefix?]
  have hdigest : printed? "Leaf hash: " (shownText leaf) = some (hex (Leaf.digest leaf.encode)) := by
    rw [hlines.printed?_eq (by decide)]
    simp [after?, List.dropPrefix?]
  exact ⟨⟨⟨fields, hfound, hfields⟩, _, hdigest, ValueReader.hash_of_spells (Hex.spells_render _)⟩, hdigest⟩

theorem printsLeaf_shownText_iff {leaf shown : Leaf} :
    PrintsLeaf (shownText leaf) shown ↔ shown = leaf := by
  have hleaf := (printsLeaf_shownText leaf).1
  constructor
  · intro h
    exact h.eq hleaf
  · rintro rfl
    exact hleaf

theorem respond_decodeLeaf {encodedText : String} (h : Hex.Spells encodedText.toList leaf.encode) :
    respond ["mmr", "decode-leaf", encodedText] = .ok ⟨shownText leaf, none⟩ := by
  have hspells : SpellsLeafData (argumentsOf [.positional encodedText]) false leaf.encode :=
    ⟨⟨encodedText, rfl, h⟩, rfl, rfl⟩
  show respond ("mmr" :: "decode-leaf" :: wordsOf [.positional encodedText]) = _
  rw [respond_of_parse (parse_decodeLeaf hspells)]
  show Except.ok (Report.ofExcept (decodeLeaf leaf.encode false)) = _
  simp only [decodeLeaf, Bool.false_eq_true, if_false, bind, Except.bind,
    Leaf.decode_eq_ok_iff.2 (Eq.refl leaf.encode)]
  rfl

/-! ## Proofs of inclusion -/

section Inclusion

variable {index : Nat} {hashes : List Hash} {indexText hashesText : String}

theorem respond_proveInclusion (hindex : Decimal.Spells indexText.toList index)
    (hhashes : Text.Lists (fun part hash => Hex.Spells part hash.bytes) hashesText.toList hashes) :
    respond ["mmr", "generate-proof", indexText, hashesText] =
      if index < 2 ^ 64 then .ok (.ofExcept (proveInclusion (UInt64.ofNat index) hashes))
      else .error (.invalidValue "<leaf-index>" .integerTooLarge) := by
  have hplain : ∀ text ∈ [indexText, hashesText], Text.IsPlain text := by
    rw [List.forall_mem_cons, List.forall_mem_singleton]
    exact ⟨Decimal.isPlain_of_spells hindex,
      Text.isPlain_of_lists hhashes fun _ _ => Hex.isInert_of_spells⟩
  have harity : (Arity.exactly 2).Admits [indexText, hashesText].length := rfl
  have hparse : Command.parse ["mmr", "generate-proof", indexText, hashesText] =
      if index < 2 ^ 64 then .ok (.proveInclusion (UInt64.ofNat index) hashes)
      else .error (.invalidValue "<leaf-index>" .integerTooLarge) := by
    have hread := ValueReader.uint64_of_spells hindex
    show Command.ofArguments ⟨.exactly 2, [], []⟩ _ [indexText, hashesText] = _
    rw [Command.ofArguments_plain (List.forall_mem_nil _) harity hplain]
    by_cases hlt : index < 2 ^ 64
    · rw [if_pos hlt] at hread ⊢
      rw [Arguments.positional_of_ok rfl hread,
        Arguments.positional_of_ok rfl (ValueReader.hashes_of_lists hhashes)]
      rfl
    · rw [if_neg hlt] at hread ⊢
      rw [Arguments.positional_of_error rfl hread]
      rfl
  unfold respond
  rw [hparse]
  split <;> rfl

theorem parse_verifyInclusion {root : Hash} {leaf encoded : Bytes}
    {rootText leafText proofText : String} (hroot : Hex.Spells rootText.toList root.bytes)
    (hleaf : Hex.Spells leafText.toList leaf) (hencoded : Hex.Spells proofText.toList encoded) :
    Command.parse ["mmr", "verify-proof", rootText, leafText, proofText] =
      .ok (.verifyInclusion root leaf encoded) := by
  have hplain : ∀ text ∈ [rootText, leafText, proofText], Text.IsPlain text := by
    simp only [List.forall_mem_cons]
    exact ⟨Hex.isPlain_of_spells hroot, Hex.isPlain_of_spells hleaf, Hex.isPlain_of_spells hencoded,
      List.forall_mem_nil _⟩
  have harity : (Arity.exactly 3).Admits [rootText, leafText, proofText].length := rfl
  show Command.ofArguments ⟨.exactly 3, [], []⟩ _ [rootText, leafText, proofText] = _
  rw [Command.ofArguments_plain (List.forall_mem_nil _) harity hplain,
    Arguments.positional_of_ok rfl (ValueReader.hash_of_spells hroot),
    Arguments.positional_of_ok rfl (ValueReader.bytes_of_spells hleaf),
    Arguments.positional_of_ok rfl (ValueReader.bytes_of_spells hencoded)]
  rfl

theorem verifyInclusion_eq_ok_iff {root : Hash} {leaf encoded : Bytes} {output : String} :
    verifyInclusion root leaf encoded = .ok output ↔
      output = "\nProof is correct.\n\n" ∧
        ∃ proof, InclusionProof.codec.decodeAll encoded = .ok proof ∧
          proof.verify Keccak.digest (Leaf.digest leaf) root = true := by
  unfold verifyInclusion
  cases InclusionProof.codec.decodeAll encoded with
  | error cause => simp
  | ok proof =>
    dsimp only
    rw [ite_else_error_eq_ok_iff]
    simp only [Except.ok.injEq, exists_eq_left']
    tauto

theorem respond_verifyInclusion {root : Hash} {encoded : Bytes} {proof : InclusionProof}
    {rootText encodedText proofText : String} (hroot : Hex.Spells rootText.toList root.bytes)
    (hencoded : Hex.Spells encodedText.toList encoded)
    (hproof : Hex.Spells proofText.toList (InclusionProof.codec.encode proof))
    (hverify : proof.verify Keccak.digest (Leaf.digest encoded) root = true) :
    respond ["mmr", "verify-proof", rootText, encodedText, proofText] =
      .ok ⟨"\nProof is correct.\n\n", none⟩ := by
  have hitems := InclusionProof.length_items_of_verify hverify
  have hdecode : InclusionProof.codec.decodeAll (InclusionProof.codec.encode proof) = .ok proof :=
    InclusionProof.lawful_codec.decodeAll_eq_ok_iff.2 ⟨by omega, rfl⟩
  rw [respond_of_parse (parse_verifyInclusion hroot hencoded hproof)]
  show Except.ok (Report.ofExcept (verifyInclusion _ _ _)) = _
  rw [verifyInclusion_eq_ok_iff.2 ⟨rfl, proof, hdecode, hverify⟩]
  rfl

theorem hasLines_inclusionText (root : Hash) (proof : InclusionProof) :
    HasLines (inclusionText root proof)
      ["", "Root: " ++ hex root,
        "SCALE-encoded proof: " ++ Hex.render (InclusionProof.codec.encode proof), ""] where
  toList_eq := by simp [inclusionText, toString]
  newline_notMem := by
    simp only [List.forall_mem_cons]
    exact ⟨by decide, newline_notMem_render (by decide) _, newline_notMem_render (by decide) _,
      by decide, List.forall_mem_nil _⟩

-- What is printed for a proof.
theorem printed_inclusionText (root : Hash) (proof : InclusionProof) :
    printed? "Root: " (inclusionText root proof) = some (hex root) ∧
      printed? "SCALE-encoded proof: " (inclusionText root proof) =
        some (Hex.render (InclusionProof.codec.encode proof)) := by
  have hlines := hasLines_inclusionText root proof
  constructor
  · rw [hlines.printed?_eq (by decide)]
    simp [after?, List.dropPrefix?]
  · rw [hlines.printed?_eq (by decide)]
    simp [after?, List.dropPrefix?]

/-- In every list that has a digest at some index, the tool proves the inclusion of the byte string that
the text spells, and what it prints for that is what it takes to check the proof. The number of leaves
is a 64-bit field of the proof, which holds the length of any list in memory. -/
def ProvesInclusion (encodedText : String) (digest : Hash) : Prop :=
  ∀ (index : Nat) (hashes : List Hash) (indexText hashesText : String),
    Decimal.Spells indexText.toList index →
    Text.Lists (fun part hash => Hex.Spells part hash.bytes) hashesText.toList hashes →
    hashes.length < 2 ^ 64 → hashes[index]? = some digest →
    ∃ output rootText proofText,
      respond ["mmr", "generate-proof", indexText, hashesText] = .ok ⟨output, none⟩ ∧
      printed? "Root: " output = some rootText ∧
      printed? "SCALE-encoded proof: " output = some proofText ∧
      respond ["mmr", "verify-proof", rootText, encodedText, proofText] =
        .ok ⟨"\nProof is correct.\n\n", none⟩

theorem provesInclusion {encoded : Bytes} {encodedText : String}
    (hencoded : Hex.Spells encodedText.toList encoded) :
    ProvesInclusion encodedText (Leaf.digest encoded) := by
  intro index hashes indexText hashesText hindex hhashes hcount hdigest
  have hlt : index < 2 ^ 64 := Nat.lt_trans (List.getElem?_eq_some_iff.1 hdigest).1 hcount
  have hleaf : (⟨hashes⟩ : MountainRange).leaves[(UInt64.ofNat index).toNat]? =
      some (Leaf.digest encoded) := by
    rw [UInt64.toNat_ofNat_of_lt' hlt]
    exact hdigest
  obtain ⟨proof, hproof, hverify⟩ :=
    @MountainRange.exists_verify_prove? Keccak.digest ⟨hashes⟩ _ _ hleaf hcount
  obtain ⟨hroot, htext⟩ := printed_inclusionText ((⟨hashes⟩ : MountainRange).root Keccak.digest) proof
  refine ⟨_, _, _, ?_, hroot, htext,
    respond_verifyInclusion (Hex.spells_render _) hencoded (Hex.spells_render _) hverify⟩
  rw [respond_proveInclusion hindex hhashes, if_pos hlt]
  unfold proveInclusion
  dsimp only
  rw [hproof]
  rfl

theorem respond_proveInclusion_of_le (hindex : Decimal.Spells indexText.toList index)
    (hhashes : Text.Lists (fun part hash => Hex.Spells part hash.bytes) hashesText.toList hashes)
    (hle : hashes.length ≤ index) :
    respond ["mmr", "generate-proof", indexText, hashesText] =
      if index < 2 ^ 64 then
        .ok ⟨"", some (.leafIndexOutOfBounds (UInt64.ofNat index) hashes.length)⟩
      else .error (.invalidValue "<leaf-index>" .integerTooLarge) := by
  rw [respond_proveInclusion hindex hhashes]
  by_cases hlt : index < 2 ^ 64
  · have hnone : (⟨hashes⟩ : MountainRange).prove? Keccak.digest (UInt64.ofNat index) = none := by
      rw [MountainRange.prove?, UInt64.toNat_ofNat_of_lt' hlt]
      exact if_neg (Nat.not_lt.2 hle)
    rw [if_pos hlt, if_pos hlt]
    unfold proveInclusion
    dsimp only
    rw [hnone]
    rfl
  · rw [if_neg hlt, if_neg hlt]

end Inclusion

/-! ## There and back -/

/-- Whatever leaf is spelled to the tool, what it prints spells the leaf, and from that it shows again
the fields of just this leaf with the same digest, and it proves and checks the inclusion of the leaf in
every list that has the digest. Components of a version that do not fit are refused, and so is an index
beyond the list. -/
theorem leaf_roundTrip (hspells : SpellsLeaf (argumentsOf parts) major minor leaf) :
    (major ≤ 7 → minor ≤ 31 → ∃ (version : LeafVersion)
        (output encodedText hashText output' : String) (digest : Hash),
      version.components = (UInt8.ofNat major, UInt8.ofNat minor) ∧
      respond ("mmr" :: "encode-leaf" :: wordsOf parts) = .ok ⟨output, none⟩ ∧
      printed? "SCALE-encoded leaf: " output = some encodedText ∧
      Hex.Spells encodedText.toList { leaf with version }.encode ∧
      printed? "Leaf hash: " output = some hashText ∧ ValueReader.hash hashText = .ok digest ∧
      respond ["mmr", "decode-leaf", encodedText] = .ok ⟨output', none⟩ ∧
      (∀ shown, PrintsLeaf output' shown ↔ shown = { leaf with version }) ∧
      printed? "Leaf hash: " output' = some hashText ∧
      ProvesInclusion encodedText digest) ∧
    (7 < major ∨ 31 < minor →
      respond ("mmr" :: "encode-leaf" :: wordsOf parts) =
        if 2 ^ 8 ≤ major then .error (.invalidValue "--major <major>" .integerTooLarge)
        else if 2 ^ 8 ≤ minor then .error (.invalidValue "--minor <minor>" .integerTooLarge)
        else .ok ⟨"", some (.versionTooBig (UInt8.ofNat major) (UInt8.ofNat minor))⟩) ∧
    ∀ (index : Nat) (hashes : List Hash) (indexText hashesText : String),
      Decimal.Spells indexText.toList index →
      Text.Lists (fun part hash => Hex.Spells part hash.bytes) hashesText.toList hashes →
      hashes.length ≤ index →
      respond ["mmr", "generate-proof", indexText, hashesText] =
        if index < 2 ^ 64 then
          .ok ⟨"", some (.leafIndexOutOfBounds (UInt64.ofNat index) hashes.length)⟩
        else .error (.invalidValue "<leaf-index>" .integerTooLarge) := by
  refine ⟨fun hmajor hminor => ?_, respond_encodeLeaf_of_lt hspells, ?_⟩
  · obtain ⟨version, hversion, hrespond⟩ := respond_encodeLeaf hspells hmajor hminor
    obtain ⟨hencoded, hhash⟩ := printed_writtenText { leaf with version }.encode
    have hspelled := Hex.spells_render { leaf with version }.encode
    exact ⟨version, _, _, _, _, _, hversion, hrespond, hencoded, hspelled, hhash,
      ValueReader.hash_of_spells (Hex.spells_render _), respond_decodeLeaf hspelled,
      fun _ => printsLeaf_shownText_iff, (printsLeaf_shownText _).2, provesInclusion hspelled⟩
  · intro index hashes indexText hashesText hindex hhashes hle
    exact respond_proveInclusion_of_le hindex hhashes hle

/-- A digest of the same byte over and over. -/
def repeated (b : UInt8) : Hash := ⟨List.replicate 32 b, List.length_replicate⟩

-- A leaf, what is shown of it, and a command line that spells it with a major version.
def sampleLeaf : Leaf := ⟨⟨32⟩, 42, repeated 0x11, repeated 0x22, ⟨1, 2, repeated 0x33⟩⟩

def sampleLine : String :=
  "MmrLeaf \x7b version: MmrLeafVersion(32), parent_number_and_hash: (42, " ++
    "0x1111111111111111111111111111111111111111111111111111111111111111), parachain_heads: " ++
    "0x2222222222222222222222222222222222222222222222222222222222222222, " ++
    "beefy_next_authority_set: BeefyNextAuthoritySet \x7b id: 1, len: 2, root: " ++
    "0x3333333333333333333333333333333333333333333333333333333333333333 \x7d \x7d"

def sampleParts (majorText : String) : List Part :=
  [.apart "parent-number" "42", .joined "major" majorText, .apart "parent-hash" (hex (repeated 0x11)),
    .joined "parachain-heads" (hex (repeated 0x22)), .joined "next-set-id" "1",
    .apart "next-set-len" "2", .apart "next-set-root" (hex (repeated 0x33))]

theorem spellsLeaf_sample {majorText : String} {major : Nat}
    (h : Decimal.Spells majorText.toList major) :
    SpellsLeaf (argumentsOf (sampleParts majorText)) major 0 sampleLeaf where
  positionals := rfl
  major := .inl ⟨majorText, rfl, h⟩
  minor := .inr ⟨rfl, rfl⟩
  parentNumber := ⟨"42", rfl, Decimal.spells_toString 42⟩
  parentHash := ⟨_, rfl, Hex.spells_render _⟩
  parachainHeads := ⟨_, rfl, Hex.spells_render _⟩
  nextSetId := ⟨"1", rfl, Decimal.spells_toString 1⟩
  nextSetLen := ⟨"2", rfl, Decimal.spells_toString 2⟩
  nextSetRoot := ⟨_, rfl, Hex.spells_render _⟩
  only := by
    refine ⟨?_, ?_, rfl⟩
    · simp [argumentsOf, sampleParts, Part.option?, leafOptions]
    · simp [argumentsOf, sampleParts, Part.option?]

theorem shownText_sample :
    shownText sampleLeaf =
      sampleLine ++ "\nLeaf hash: " ++ hex (Leaf.digest sampleLeaf.encode) ++ "\n" := by
  have hline : leafText sampleLeaf = sampleLine := by decide +kernel
  rw [shownText, hline]
  rfl

theorem sample_leaf_roundTrip :
    (∃ output encodedText hashText digest output' rootText proofText,
      respond ("mmr" :: "encode-leaf" :: wordsOf (sampleParts "1")) = .ok ⟨output, none⟩ ∧
      printed? "SCALE-encoded leaf: " output = some encodedText ∧
      printed? "Leaf hash: " output = some hashText ∧ ValueReader.hash hashText = .ok digest ∧
      respond ["mmr", "decode-leaf", encodedText] =
        .ok ⟨sampleLine ++ "\nLeaf hash: " ++ hashText ++ "\n", none⟩ ∧
      respond ["mmr", "generate-proof", "1", hex (.zero : Hash) ++ "," ++ hex digest] =
        .ok ⟨output', none⟩ ∧
      printed? "Root: " output' = some rootText ∧
      printed? "SCALE-encoded proof: " output' = some proofText ∧
      respond ["mmr", "verify-proof", rootText, encodedText, proofText] =
        .ok ⟨"\nProof is correct.\n\n", none⟩) ∧
    respond ("mmr" :: "encode-leaf" :: wordsOf (sampleParts "8")) =
      .ok ⟨"", some (.versionTooBig 8 0)⟩ ∧
    respond ["mmr", "generate-proof", "1", hex (.zero : Hash)] =
      .ok ⟨"", some (.leafIndexOutOfBounds 1 1)⟩ := by
  have hone : Decimal.Spells "1".toList 1 := Decimal.spells_toString 1
  have hplain (hash : Hash) : ∃ core, Text.Padded core (hex hash).toList ∧ Hex.Spells core hash.bytes :=
    ⟨_, ⟨[], [], nofun, nofun, (List.append_nil _).symm⟩, Hex.spells_render hash.bytes⟩
  obtain ⟨hfits, -, hbeyond⟩ := leaf_roundTrip (spellsLeaf_sample hone)
  obtain ⟨version, output, encodedText, hashText, shown, digest, hversion, hmade, hencoded, hspelled,
    hhash, hread, hshown, -, hagain, hproves⟩ := hfits (by decide) (by decide)
  have hpacked : version = ⟨32⟩ := by
    have hof := LeafVersion.ofComponents_eq_ok_iff.2 hversion
    cases hof
    rfl
  subst hpacked
  have hline : respond ["mmr", "decode-leaf", encodedText] = .ok ⟨shownText sampleLeaf, none⟩ :=
    respond_decodeLeaf hspelled
  rw [hline, Except.ok.injEq, Report.mk.injEq] at hshown
  obtain ⟨rfl, -⟩ := hshown
  rw [(printsLeaf_shownText sampleLeaf).2, Option.some.injEq] at hagain
  rw [shownText_sample, hagain] at hline
  refine ⟨?_, ?_, ?_⟩
  · obtain ⟨output', rootText, proofText, hproof, hroot, htext, hverified⟩ :=
      hproves 1 [.zero, digest] "1" (hex (.zero : Hash) ++ "," ++ hex digest) hone
        ⟨[(hex (.zero : Hash)).toList, (hex digest).toList], List.cons_ne_nil _ _,
          by simp [List.intercalate], .cons (hplain _) (.cons (hplain _) .nil)⟩
        (show 2 < 2 ^ 64 by decide) rfl
    exact ⟨output, encodedText, hashText, digest, output', rootText, proofText, hmade, hencoded, hhash,
      hread, hline, hproof, hroot, htext, hverified⟩
  · exact (leaf_roundTrip (spellsLeaf_sample (Decimal.spells_toString 8))).2.1 (by decide)
  · exact hbeyond 1 [.zero] "1" (hex (.zero : Hash)) hone
      ⟨[(hex (.zero : Hash)).toList], by decide, by simp, .cons (hplain _) .nil⟩ (by decide)

end CommandLine

end FinalityBridge
