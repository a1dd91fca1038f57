import FinalityBridge.Proofs.CommandLine.Arguments
import FinalityBridge.Proofs.CommandLine.Printed
import FinalityBridge.Proofs.Scale.Records
import FinalityBridge.Proofs.ValidatorSet

/-!
# Membership proofs as texts

What the tool prints for a member of a list of addresses is what it takes to check the proof: given
the printed root, length and proof, it names the position and the address that stands there
(`CommandLine.membership_roundTrip`). A position beyond the list has no proof.
-/

namespace FinalityBridge

namespace MembershipProof

variable {addresses : List Address} {q : UInt32} {proof : MembershipProof}

theorem length_siblings_le (h : ofAddresses? addresses q = some proof) :
    proof.siblings.length ≤ addresses.length := by
  obtain ⟨address, -, rfl⟩ := ofAddresses?_eq_some_iff.1 h
  apply Nat.le_trans (Merkle.Layer.length_path_le _ _)
  rw [List.length_map, List.length_map]

theorem ofAddresses?_eq_none (h : addresses.length ≤ q.toNat) : ofAddresses? addresses q = none := by
  rw [Option.eq_none_iff_forall_ne_some]
  intro proof hproof
  obtain ⟨address, haddress, -⟩ := ofAddresses?_eq_some_iff.1 hproof
  rw [List.getElem?_eq_none h] at haddress
  cases haddress

end MembershipProof

namespace CommandLine

open Report

/-! ## Making a proof -/

/-- Arguments that spell a position, a list of addresses and the id of their set, which may be left
out if it is zero. -/
structure SpellsMembers (arguments : Arguments) (position : Nat) (members : List Address)
    (setId : UInt64) : Prop where
  positionals : ∃ positionText membersText, arguments.positionals = [positionText, membersText] ∧
    Decimal.Spells positionText.toList position ∧
    Text.Lists (fun part address => Hex.Spells part address.bytes) membersText.toList members
  setId : arguments.GivesOr "set-id" 0 setId.toNat
  only : arguments.Only ["set-id"]

/-- The form of the command that proves a membership. -/
def membershipForm : Form := ⟨.exactly 2, [("set-id", .defaulted)], []⟩

theorem wellNamed_membershipForm : membershipForm.WellNamed := by
  constructor <;> decide

variable {parts : List Part} {position : Nat} {members : List Address} {setId : UInt64}

theorem SpellsMembers.fits {arguments : Arguments}
    (h : SpellsMembers arguments position members setId) : membershipForm.Fits arguments := by
  obtain ⟨positionText, membersText, hpositionals, hposition, hmembers⟩ := h.positionals
  apply Form.Fits.of_only h.only
  case hnames => decide
  case harity => rw [hpositionals]; rfl
  case hpositional =>
    rw [hpositionals, List.forall_mem_cons, List.forall_mem_singleton]
    exact ⟨Decimal.isPlain_of_spells hposition,
      Text.isPlain_of_lists hmembers fun _ _ => Hex.isInert_of_spells⟩
  case hdemand => exact List.forall_mem_singleton.2 trivial
  case hvalue =>
    rw [List.forall_mem_singleton]
    exact fun value => h.setId.isPlain

-- A position is read unless it is too large for any list.
theorem parse_proveMembership (h : SpellsMembers (argumentsOf parts) position members setId) :
    Command.parse ("validator-tree" :: "generate-proof" :: wordsOf parts) =
      if position < 2 ^ 32 then .ok (.proveMembership (UInt32.ofNat position) members setId)
      else .error (.invalidValue "<position>" .integerTooLarge) := by
  obtain ⟨positionText, membersText, hpositionals, hposition, hmembers⟩ := h.positionals
  have hid : (argumentsOf parts).optionD "set-id" ValueReader.uint64 0 = .ok setId := by
    apply h.setId.optionD_eq fun text => ValueReader.uint64_of_spells_toNat
    intro hzero
    exact (UInt64.toNat_inj.1 hzero).symm
  show Command.ofArguments membershipForm _ (wordsOf parts) = _
  rw [Command.ofArguments_words wellNamed_membershipForm h.fits]
  by_cases hlt : position < 2 ^ 32
  · have hread := (ValueReader.uint32_of_spells hposition).trans (if_pos hlt)
    rw [if_pos hlt, Arguments.positional_of_ok (by rw [hpositionals]; rfl) hread,
      Arguments.positional_of_ok (by rw [hpositionals]; rfl) (ValueReader.addresses_of_lists hmembers),
      hid]
    rfl
  · have hread := (ValueReader.uint32_of_spells hposition).trans (if_neg hlt)
    rw [if_neg hlt, Arguments.positional_of_error (by rw [hpositionals]; rfl) hread]
    rfl

theorem respond_proveMembership (h : SpellsMembers (argumentsOf parts) position members setId) :
    respond ("validator-tree" :: "generate-proof" :: wordsOf parts) =
      if position < 2 ^ 32 then
        .ok (.ofExcept (proveMembership (UInt32.ofNat position) members setId))
      else .error (.invalidValue "<position>" .integerTooLarge) := by
  unfold respond
  rw [parse_proveMembership h]
  split <;> rfl

/-! ## The printed texts -/

/-- An output shows a set: its root and its number of members, as texts that are read as these, and its
written form. It shows a proof by another text. -/
structure ShowsMember (output : String) (set : ValidatorSet) (rootText lenText proofText : String) :
    Prop where
  root : printed? "Root: " output = some rootText
  hash_root : ValueReader.hash rootText = .ok set.root
  len : printed? "Length: " output = some lenText
  uint32_len : ValueReader.uint32 lenText = .ok set.len
  set : ∃ setText encoded, printed? "SCALE-encoded validator set: " output = some setText ∧
    ValueReader.bytes setText = .ok encoded ∧ ValidatorSet.codec.decodeAll encoded = .ok set
  proof : printed? "SCALE-encoded proof: " output = some proofText

-- The lines of what is printed for a member.
def membershipLines (set : ValidatorSet) (proof : MembershipProof) : List String :=
  ["", "Root: " ++ hex set.root, "Length: " ++ toString set.len,
    "SCALE-encoded validator set: " ++ Hex.render (ValidatorSet.codec.encode set), "",
    "Address: " ++ hex proof.address,
    "SCALE-encoded proof: " ++ Hex.render (MembershipProof.codec.encode proof), ""]

theorem hasLines_membershipText (set : ValidatorSet) (proof : MembershipProof) :
    HasLines (membershipText set proof) (membershipLines set proof) where
  toList_eq := by simp [membershipText, membershipLines, toString]
  newline_notMem := by
    have hlen : '\n' ∉ ("Length: " ++ toString set.len).toList :=
      newline_notMem_append (by decide) (isAtom_toString set.len.toNat).newline_notMem
    simp only [membershipLines, List.forall_mem_cons]
    exact ⟨by decide, newline_notMem_render (by decide) _, hlen, newline_notMem_render (by decide) _,
      by decide, newline_notMem_render (by decide) _, newline_notMem_render (by decide) _, by decide,
      List.forall_mem_nil _⟩

theorem showsMember_membershipText (set : ValidatorSet) (proof : MembershipProof) :
    ShowsMember (membershipText set proof) set (hex set.root) (toString set.len)
      (Hex.render (MembershipProof.codec.encode proof)) := by
  have hlines := hasLines_membershipText set proof
  constructor
  case root =>
    rw [hlines.printed?_eq (by decide)]
    simp [membershipLines, after?, List.dropPrefix?]
  case hash_root => exact ValueReader.hash_of_spells (Hex.spells_render _)
  case len =>
    rw [hlines.printed?_eq (by decide)]
    simp [membershipLines, after?, List.dropPrefix?]
  case uint32_len => exact ValueReader.uint32_of_spells_toNat (Decimal.spells_toString _)
  case set =>
    refine ⟨Hex.render (ValidatorSet.codec.encode set), _, ?_,
      ValueReader.bytes_of_spells (Hex.spells_render _),
      ValidatorSet.lawful_codec.decodeAll_eq_ok_iff.2 ⟨trivial, rfl⟩⟩
    rw [hlines.printed?_eq (by decide)]
    simp [membershipLines, after?, List.dropPrefix?]
  case proof =>
    rw [hlines.printed?_eq (by decide)]
    simp [membershipLines, after?, List.dropPrefix?]

/-! ## Checking a proof -/

theorem respond_verifyMembership {set : ValidatorSet} {proof : MembershipProof}
    {rootText lenText proofText : String} (hroot : Hex.Spells rootText.toList set.root.bytes)
    (hlen : Decimal.Spells lenText.toList set.len.toNat)
    (hproof : Hex.Spells proofText.toList (MembershipProof.codec.encode proof))
    (hsiblings : proof.siblings.length < 2 ^ 32) (hverify : set.verify proof = true) :
    respond ["validator-tree", "verify-proof", rootText, lenText, proofText] =
      .ok ⟨s!"\nProof for validator #{proof.position} ({hex proof.address}) is correct.\n\n", none⟩ := by
  have hplain : ∀ text ∈ [rootText, lenText, proofText], Text.IsPlain text := by
    simp only [List.forall_mem_cons]
    exact ⟨Hex.isPlain_of_spells hroot, Decimal.isPlain_of_spells hlen, Hex.isPlain_of_spells hproof,
      List.forall_mem_nil _⟩
  have harity : (Arity.exactly 3).Admits [rootText, lenText, proofText].length := rfl
  have hparse : Command.parse ["validator-tree", "verify-proof", rootText, lenText, proofText] =
      .ok (.verifyMembership set.root set.len (MembershipProof.codec.encode proof)) := by
    show Command.ofArguments ⟨.exactly 3, [], []⟩ _ [rootText, lenText, proofText] = _
    rw [Command.ofArguments_plain (List.forall_mem_nil _) harity hplain,
      Arguments.positional_of_ok rfl (ValueReader.hash_of_spells hroot),
      Arguments.positional_of_ok rfl (ValueReader.uint32_of_spells_toNat hlen),
      Arguments.positional_of_ok rfl (ValueReader.bytes_of_spells hproof)]
    rfl
  have hdecode : MembershipProof.codec.decodeAll (MembershipProof.codec.encode proof) = .ok proof :=
    MembershipProof.lawful_codec.decodeAll_eq_ok_iff.2 ⟨hsiblings, rfl⟩
  rw [respond_of_parse hparse]
  show Except.ok (Report.ofExcept (verifyMembership _ _ _)) = _
  unfold verifyMembership
  rw [hdecode]
  dsimp only
  rw [if_pos]
  · rfl
  · exact hverify

/-! ## There and back -/

/-- Whatever list of addresses is spelled to the tool, what it prints for a position of the list is
enough to check the proof, which names the position and the address that stands there. The printed set
is that of the list, under the given id. For a position beyond the list nothing is printed. -/
theorem membership_roundTrip (hspells : SpellsMembers (argumentsOf parts) position members setId)
    (hcount : members.length < 2 ^ 32) :
    (∀ address, members[position]? = some address →
      ∃ output set rootText lenText proofText,
        respond ("validator-tree" :: "generate-proof" :: wordsOf parts) = .ok ⟨output, none⟩ ∧
        ShowsMember output set rootText lenText proofText ∧
        ValidatorSet.ofAddresses members setId = .ok set ∧
        set.len.toNat = members.length ∧ set.id = setId ∧
        respond ["validator-tree", "verify-proof", rootText, lenText, proofText] =
          .ok ⟨s!"\nProof for validator #{position} ({hex address}) is correct.\n\n", none⟩) ∧
    (members.length ≤ position →
      respond ("validator-tree" :: "generate-proof" :: wordsOf parts) =
        if position < 2 ^ 32 then
          .ok ⟨"", some (.positionOutOfBounds (UInt32.ofNat position) members.length)⟩
        else .error (.invalidValue "<position>" .integerTooLarge)) := by
  have hrespond := respond_proveMembership hspells
  constructor
  · intro address haddress
    have hlt : position < members.length := (List.getElem?_eq_some_iff.1 haddress).1
    have hposition : (UInt32.ofNat position).toNat = position :=
      UInt32.toNat_ofNat_of_lt' (Nat.lt_trans hlt hcount)
    obtain ⟨proof, hproof⟩ := MembershipProof.exists_ofAddresses? (by rwa [hposition])
    obtain ⟨set, hset⟩ : ∃ set, ValidatorSet.ofAddresses members setId = .ok set :=
      ⟨_, ValidatorSet.ofAddresses_eq_ok_iff.2 ⟨hcount, rfl⟩⟩
    have hsiblings := Nat.lt_of_le_of_lt (MembershipProof.length_siblings_le hproof) hcount
    have hverified := respond_verifyMembership (Hex.spells_render _) (Decimal.spells_toString _)
      (Hex.spells_render _) hsiblings (ValidatorSet.verify_ofAddresses? hset hproof)
    obtain ⟨address', haddress', hproof'⟩ := MembershipProof.ofAddresses?_eq_some_iff.1 hproof
    rw [hposition, haddress] at haddress'
    cases haddress'
    obtain ⟨-, hset'⟩ := ValidatorSet.ofAddresses_eq_ok_iff.1 hset
    refine ⟨membershipText set proof, set, _, _, _, ?_, showsMember_membershipText set proof, hset,
      ?_, ?_, ?_⟩
    · rw [hrespond, if_pos (Nat.lt_trans hlt hcount), proveMembership, hproof]
      dsimp only
      rw [hset]
      rfl
    · rw [hset']
      exact UInt32.toNat_ofNat_of_lt' hcount
    · rw [hset']
    · have htext : toString (UInt32.ofNat position) = toString position := congrArg toString hposition
      rw [hproof'] at hverified ⊢
      dsimp only at hverified
      rw [htext] at hverified
      exact hverified
  · intro hle
    rw [hrespond]
    by_cases hlt : position < 2 ^ 32
    · have hnone : MembershipProof.ofAddresses? members (UInt32.ofNat position) = none := by
        apply MembershipProof.ofAddresses?_eq_none
        rwa [UInt32.toNat_ofNat_of_lt' hlt]
      rw [if_pos hlt, if_pos hlt, proveMembership, hnone]
      rfl
    · rw [if_neg hlt, if_neg hlt]

-- Two addresses, one of them with blanks around it.
def twoMembers : String := hex (.zero : Address) ++ ",\t" ++ hex (.ofNat 10 : Address) ++ " "

theorem spellsMembers_two (parts : List Part) {position : Nat} {positionText : String}
    (hpositionals : (argumentsOf parts).positionals = [positionText, twoMembers])
    (hposition : Decimal.Spells positionText.toList position)
    (hoptions : (argumentsOf parts).options = [("set-id", some "7")])
    (hflags : (argumentsOf parts).flags = []) :
    SpellsMembers (argumentsOf parts) position [.zero, .ofNat 10] 7 where
  positionals := by
    refine ⟨positionText, twoMembers, hpositionals, hposition, ?_⟩
    refine ⟨[(hex (.zero : Address)).toList, '\t' :: (hex (.ofNat 10 : Address)).toList ++ [' ']],
      by decide, by decide +kernel, ?_⟩
    have hplain : Text.Padded (hex (.zero : Address)).toList (hex (.zero : Address)).toList :=
      ⟨[], [], nofun, nofun, by simp⟩
    have hpadded : Text.Padded (hex (.ofNat 10 : Address)).toList
        ('\t' :: (hex (.ofNat 10 : Address)).toList ++ [' ']) :=
      ⟨['\t'], [' '], List.forall_mem_singleton.2 rfl, List.forall_mem_singleton.2 rfl, by simp⟩
    exact .cons ⟨_, hplain, Hex.spells_render _⟩ (.cons ⟨_, hpadded, Hex.spells_render _⟩ .nil)
  setId := by
    refine .inl ⟨"7", ?_, Decimal.spells_toString 7⟩
    rw [Arguments.values, hoptions]
    rfl
  only := by
    refine ⟨?_, ?_, hflags⟩
    · rw [hoptions]
      decide
    · rw [hoptions]
      decide

theorem second_membership_roundTrip :
    (∃ output rootText lenText proofText,
      respond ["validator-tree", "generate-proof", "--set-id=7", "1", twoMembers] =
        .ok ⟨output, none⟩ ∧
      printed? "Root: " output = some rootText ∧ printed? "Length: " output = some lenText ∧
      printed? "SCALE-encoded proof: " output = some proofText ∧
      respond ["validator-tree", "verify-proof", rootText, lenText, proofText] =
        .ok ⟨"\nProof for validator #1 (0x000000000000000000000000000000000000000a) is correct.\n\n",
          none⟩) ∧
    respond ["validator-tree", "generate-proof", "2", twoMembers, "--set-id", "7"] =
      .ok ⟨"", some (.positionOutOfBounds 2 2)⟩ := by
  have hone : Decimal.Spells "1".toList 1 := Decimal.spells_toString 1
  have htwo : Decimal.Spells "2".toList 2 := Decimal.spells_toString 2
  constructor
  · have hspells := spellsMembers_two
      [.joined "set-id" "7", .positional "1", .positional twoMembers] rfl hone rfl rfl
    obtain ⟨output, set, rootText, lenText, proofText, hmade, hshows, -, -, -, hverified⟩ :=
      (membership_roundTrip hspells (by decide)).1 _ rfl
    exact ⟨output, rootText, lenText, proofText, hmade, hshows.root, hshows.len, hshows.proof,
      hverified⟩
  · have hspells := spellsMembers_two
      [.positional "2", .positional twoMembers, .apart "set-id" "7"] rfl htwo rfl rfl
    exact (membership_roundTrip hspells (by decide)).2 (by decide)

end CommandLine

end FinalityBridge
