import FinalityBridge.Proofs.Bitfield.Finset
import FinalityBridge.Proofs.Client.Signers
import FinalityBridge.Proofs.CommandLine.Arguments
import FinalityBridge.Proofs.CommandLine.Printed

/-!
# Challenges drawn by an observer

The challenge of a session follows from what is public about it: the hash of its lock block, the
claimed positions and the number of validators. An observer who gives these to the tool, in whatever
order and however often the positions are listed, is shown just the challenge that the client has
drawn: its marks, its words and its positions (`Client.observer_draws_challenge`).
-/

namespace FinalityBridge

namespace CommandLine

open Report (challengeText listText)

/-- Arguments that spell what is public about a claim over `validators` validators: the seed of its
challenge, a list of its positions and no others, and the number of validators. -/
structure SpellsClaim (arguments : Arguments) (seed : Hash) (claimed : Bitfield) (validators : UInt32) :
    Prop where
  positionals : ∃ seedText claimedText listed, arguments.positionals = [seedText, claimedText] ∧
    Hex.Spells seedText.toList seed.bytes ∧
    Text.Lists (fun part p => Decimal.Spells part p.toNat) claimedText.toList listed ∧
    ∀ p : UInt32, p ∈ listed ↔ claimed.contains p = true
  validators : arguments.Gives "validators" (Decimal.Spells · validators.toNat)
  -- No size of the sample is given.
  only : arguments.Only ["validators"]

/-- The form of the command that draws a challenge. -/
def challengeForm : Form := ⟨.exactly 2, [("validators", .required), ("subset-size", .optional)], []⟩

theorem wellNamed_challengeForm : challengeForm.WellNamed := by
  constructor <;> decide

variable {parts : List Part} {seed : Hash} {claimed : Bitfield} {validators : UInt32}

theorem SpellsClaim.values_size {arguments : Arguments}
    (h : SpellsClaim arguments seed claimed validators) : arguments.values "subset-size" = [] :=
  h.only.values_eq_nil (by decide)

theorem SpellsClaim.fits {arguments : Arguments} (h : SpellsClaim arguments seed claimed validators) :
    challengeForm.Fits arguments := by
  obtain ⟨seedText, claimedText, listed, hpositionals, hseed, hlists, -⟩ := h.positionals
  apply Form.Fits.of_only h.only
  case hnames => decide
  case harity => rw [hpositionals]; rfl
  case hpositional =>
    rw [hpositionals, List.forall_mem_cons, List.forall_mem_singleton]
    exact ⟨Hex.isPlain_of_spells hseed,
      Text.isPlain_of_lists hlists fun _ _ => Decimal.isInert_of_spells⟩
  case hdemand =>
    refine List.forall_mem_cons.2 ⟨h.validators.admits _, List.forall_mem_singleton.2 ?_⟩
    exact .inl h.values_size
  case hvalue =>
    rw [List.forall_mem_singleton]
    exact fun value => h.validators.isPlain fun _ => Decimal.isPlain_of_spells

/-- The challenge that is drawn from what is public about a claim. -/
theorem respond_challenge (h : SpellsClaim (argumentsOf parts) seed claimed claimed.len) :
    respond ("challenge" :: wordsOf parts) =
      .ok ⟨challengeText claimed (Bitfield.challenge seed claimed (sampleSize claimed.len)), none⟩ := by
  obtain ⟨seedText, claimedText, listed, hpositionals, hseed, hlists, hlisted⟩ := h.positionals
  have hparse : Command.parse ("challenge" :: wordsOf parts) =
      .ok (.challenge seed listed claimed.len none) := by
    show Command.ofArguments challengeForm _ (wordsOf parts) = _
    rw [Command.ofArguments_words wellNamed_challengeForm h.fits,
      Arguments.positional_of_ok (by rw [hpositionals]; rfl) (ValueReader.hash_of_spells hseed),
      Arguments.positional_of_ok (by rw [hpositionals]; rfl) (ValueReader.positions_of_lists hlists),
      h.validators.option_eq fun text => ValueReader.uint32_of_spells_toNat,
      Arguments.option?_of_values_nil h.values_size]
    rfl
  have hclaimed := Bitfield.ofPositions_eq_ok_iff.2 ⟨rfl, hlisted⟩
  rw [respond_of_parse hparse]
  show Except.ok (Report.ofExcept (Report.challenge seed listed claimed.len none)) = _
  unfold Report.challenge
  rw [hclaimed]
  rfl

/-! ## What is shown of a challenge -/

/-- A text marks the positions of a bitfield among all below its length, the highest first. -/
def Marks (text : String) (b : Bitfield) : Prop :=
  text.toList = (List.range b.len.toNat).reverse.map fun p => if p ∈ b.toFinset then '1' else '0'

/-- An output shows a claim and its challenge: the marks of both, and the words and the positions of
the challenge as lists of numbers. -/
structure PrintsChallenge (output : String) (claimed challenged : Bitfield) : Prop where
  claimedMarks : ∃ text, printed? "Claimed:   " output = some text ∧ Marks text claimed
  challengedMarks : ∃ text, printed? "Challenge: " output = some text ∧ Marks text challenged
  words : ∃ text, printed? "Words: " output = some text ∧
    (atoms text.toList).mapM ValueReader.uint64 = .ok challenged.words
  positions : ∃ text, printed? "Positions: " output = some text ∧
    (atoms text.toList).mapM ValueReader.uint32 = .ok challenged.ones

theorem marks_render (b : Bitfield) : Marks b.render b := b.toList_render

-- Marks are those of one bitfield only.
theorem Marks.eq {text : String} {a b : Bitfield} (ha : Marks text a) (hb : Marks text b) : a = b := by
  have hmarks := ha.symm.trans hb
  have hlen : a.len.toNat = b.len.toNat := by simpa using congrArg List.length hmarks
  rw [hlen, List.map_inj_left] at hmarks
  have hmem : ∀ p < b.len.toNat, p ∈ a.toFinset ↔ p ∈ b.toFinset := by
    intro p hp
    have hmark := hmarks p (List.mem_reverse.2 (List.mem_range.2 hp))
    by_cases hpa : p ∈ a.toFinset <;> by_cases hpb : p ∈ b.toFinset <;> simp [hpa, hpb] at hmark ⊢
  rw [Bitfield.eq_iff_toFinset]
  refine ⟨UInt32.toNat_inj.1 hlen, Finset.ext fun p => ⟨fun hp => ?_, fun hp => ?_⟩⟩
  · exact (hmem p (hlen ▸ Bitfield.lt_len_of_mem_toFinset hp)).1 hp
  · exact (hmem p (Bitfield.lt_len_of_mem_toFinset hp)).2 hp

theorem Marks.newline_notMem {text : String} {b : Bitfield} (h : Marks text b) : '\n' ∉ text.toList := by
  rw [h, List.mem_map]
  rintro ⟨p, -, hmark⟩
  by_cases hp : p ∈ b.toFinset <;> simp [hp] at hmark

-- What is shown is shown of one claim and one challenge only.
theorem PrintsChallenge.eq {output : String} {a b a' b' : Bitfield} (h : PrintsChallenge output a b)
    (h' : PrintsChallenge output a' b') : a = a' ∧ b = b' := by
  have heq {label : String} {x y : Bitfield}
      (hx : ∃ text, printed? label output = some text ∧ Marks text x)
      (hy : ∃ text, printed? label output = some text ∧ Marks text y) : x = y := by
    obtain ⟨text, htext, hmarks⟩ := hx
    obtain ⟨text', htext', hmarks'⟩ := hy
    obtain rfl : text = text' := Option.some.inj (htext.symm.trans htext')
    exact hmarks.eq hmarks'
  exact ⟨heq h.claimedMarks h'.claimedMarks, heq h.challengedMarks h'.challengedMarks⟩

/-- The lines that show a claim and its challenge. -/
def challengeLines (claimed challenged : Bitfield) : List String :=
  ["", "Claimed:   " ++ claimed.render, "Challenge: " ++ challenged.render,
    "Words: " ++ listText challenged.words, "Positions: " ++ listText challenged.ones, ""]

theorem hasLines_challengeText (claimed challenged : Bitfield) :
    HasLines (challengeText claimed challenged) (challengeLines claimed challenged) where
  toList_eq := by
    unfold challengeText challengeLines
    simp [toString]
  newline_notMem := by
    have hwords : '\n' ∉ (listText challenged.words).toList :=
      newline_notMem_listText fun word _ => isAtom_toString word.toNat
    have hones : '\n' ∉ (listText challenged.ones).toList :=
      newline_notMem_listText fun position _ => isAtom_toString position.toNat
    simp only [challengeLines, List.forall_mem_cons]
    exact ⟨by decide, newline_notMem_append (by decide) (marks_render claimed).newline_notMem,
      newline_notMem_append (by decide) (marks_render challenged).newline_notMem,
      newline_notMem_append (by decide) hwords, newline_notMem_append (by decide) hones, by decide,
      List.forall_mem_nil _⟩

theorem printsChallenge_challengeText (claimed challenged : Bitfield) :
    PrintsChallenge (challengeText claimed challenged) claimed challenged := by
  have hlines := hasLines_challengeText claimed challenged
  have hwords : (atoms (listText challenged.words).toList).mapM ValueReader.uint64 =
      .ok challenged.words :=
    mapM_atoms_listText (fun word _ => isAtom_toString word.toNat) fun word _ =>
      ValueReader.uint64_of_spells_toNat (Decimal.spells_toString word.toNat)
  have hones : (atoms (listText challenged.ones).toList).mapM ValueReader.uint32 =
      .ok challenged.ones :=
    mapM_atoms_listText (fun position _ => isAtom_toString position.toNat) fun position _ =>
      ValueReader.uint32_of_spells_toNat (Decimal.spells_toString position.toNat)
  constructor
  case claimedMarks =>
    rw [hlines.printed?_eq (by decide)]
    exact ⟨claimed.render, by simp [challengeLines, after?, List.dropPrefix?], marks_render claimed⟩
  case challengedMarks =>
    rw [hlines.printed?_eq (by decide)]
    exact ⟨challenged.render, by simp [challengeLines, after?, List.dropPrefix?],
      marks_render challenged⟩
  case words =>
    rw [hlines.printed?_eq (by decide)]
    exact ⟨listText challenged.words, by simp [challengeLines, after?, List.dropPrefix?], hwords⟩
  case positions =>
    rw [hlines.printed?_eq (by decide)]
    exact ⟨listText challenged.ones, by simp [challengeLines, after?, List.dropPrefix?], hones⟩

/-- What is shown of a claim and its challenge is read back as these two, and as no others. -/
theorem printsChallenge_challengeText_iff {claimed challenged a b : Bitfield} :
    PrintsChallenge (challengeText a b) claimed challenged ↔ claimed = a ∧ challenged = b := by
  have hshown := printsChallenge_challengeText a b
  constructor
  · intro h
    exact h.eq hshown
  · rintro ⟨rfl, rfl⟩
    exact hshown

end CommandLine

/-! ## The challenge of a session -/

namespace Client

open CommandLine Report

/-- Whoever gives the tool what is public about a session is shown its claim and the challenge that
the client has drawn for it. -/
theorem observer_draws_challenge {initial : ValidatorSet} {config : Config} {calls : List Call}
    {chain : HostChain} {id : SessionId} {b : Bitfield}
    (h : (((new initial config).run calls).challenge chain id).1 = .ok b) :
    ∃ session seed, ((new initial config).run calls).sessions.session? id = some session ∧
      chain.hash? session.lockBlock = some seed ∧
      ∀ parts,
        SpellsClaim (argumentsOf parts) seed session.claimed session.validatorSet.len →
        ∃ output, respond ("challenge" :: wordsOf parts) = .ok ⟨output, none⟩ ∧
          ∀ claimed challenged, PrintsChallenge output claimed challenged ↔
            claimed = session.claimed ∧ challenged = b := by
  cases hsession : ((new initial config).run calls).sessions.session? id with
  | none =>
    obtain ⟨e, heq⟩ := challenge_of_not_pending hsession chain
    rw [heq] at h
    cases h
  | some session =>
    have hlen := (claimed_of_mem_pending (SessionStore.mem_of_session? hsession).1).1
    rw [challenge_of_pending hsession] at h
    cases hseed : (((new initial config).run calls).seed chain session).1 with
    | error e =>
      rw [hseed] at h
      cases h
    | ok seed =>
      rw [hseed] at h
      cases h
      have hhash := (seed_eq_ok_iff.1 hseed).2
      refine ⟨session, seed, rfl, hhash, fun parts hparts => ?_⟩
      rw [← hlen] at hparts
      rw [respond_challenge hparts, hlen]
      exact ⟨_, rfl, fun _ _ => printsChallenge_challengeText_iff⟩

namespace Sample

/-- Four validators, the first two of them those of the small run. -/
def fourAddresses : List Address := addresses ++ [.ofNat 3, .ofNat 4]

def setOfFour : ValidatorSet := ⟨Merkle.root Keccak.digest (fourAddresses.map (·.bytes)), 4, 0⟩

/-- Opens a session in which all four are claimed, by the signature of the second. -/
def openingOfFour : NewCommitment :=
  -- Above the first two stands the node of the others.
  let others := Merkle.join Keccak.digest (Keccak.digest (.ofNat 3 : Address).bytes)
    (Keccak.digest (.ofNat 4 : Address).bytes)
  { opening with
    claimed := [15]
    proof := { opening.proof with siblings := opening.proof.siblings ++ [others] } }

def openFour : List Call := [.initiate (hostChain 10) openingOfFour]

-- Three of the four are drawn.
theorem challenge_openFour :
    ((((new setOfFour .standard).run openFour).challenge (hostChain 60) ⟨0⟩).1.toOption.map
      (·.ones)) = some [0, 2, 3] := by
  decide +kernel

-- The session is the one that opens for the claim over all four.
theorem opened_openFour {session : Session}
    (h : ((new setOfFour .standard).run openFour).sessions.session? ⟨0⟩ = some session) :
    session.validatorSet = setOfFour ∧ Bitfield.ofClaim [15] 4 = .ok session.claimed := by
  rcases mem_pending_run (SessionStore.mem_of_session? h).1 with
    hnone | ⟨step, hstep, chain₀, new₀, claimed, hcall, hcheck, rfl⟩
  · cases hnone
  · rcases List.mem_singleton.1 hstep with rfl
    cases hcall
    exact ⟨rfl, (checkNew_eq_ok_iff.1 hcheck).2.1⟩

/-- What is printed for the claim of all four. -/
def textOfFour : String :=
  "\nClaimed:   1111\nChallenge: 1101\nWords: [13]\nPositions: [0, 2, 3]\n\n"

theorem claim_four {claimed : Bitfield} (h : Bitfield.ofClaim [15] 4 = .ok claimed) :
    claimed.len = 4 ∧ claimed.ones = [0, 1, 2, 3] ∧
      challengeText claimed (Bitfield.challenge .zero claimed (sampleSize 4)) = textOfFour := by
  have hclaim : (Bitfield.ofClaim [15] 4).toOption.map (fun claimed =>
      (claimed.len, claimed.ones,
        challengeText claimed (Bitfield.challenge .zero claimed (sampleSize 4)))) =
      some (4, [0, 1, 2, 3], textOfFour) := by
    decide +kernel
  rw [h] at hclaim
  obtain ⟨hlen, hshown⟩ := Prod.mk.inj (Option.some.inj hclaim)
  exact ⟨hlen, Prod.mk.inj hshown⟩

-- The positions of all four in another order, one of them twice.
theorem lists_four :
    Text.Lists (fun part (p : UInt32) => Decimal.Spells part p.toNat) "3, 0,1,2,1".toList
      [3, 0, 1, 2, 1] := by
  have hplain {c : Char} {n : Nat} (h : Decimal.Spells [c] n) :
      ∃ core, Text.Padded core [c] ∧ Decimal.Spells core n :=
    ⟨[c], ⟨[], [], nofun, nofun, rfl⟩, h⟩
  refine ⟨[['3'], [' ', '0'], ['1'], ['2'], ['1']], by decide, by decide, ?_⟩
  have hone := hplain (Decimal.spells_toString 1)
  have hzero : Text.Padded ['0'] [' ', '0'] := ⟨[' '], [], List.forall_mem_singleton.2 rfl, nofun, rfl⟩
  exact .cons (hplain (Decimal.spells_toString 3)) (.cons ⟨_, hzero, Decimal.spells_toString 0⟩
    (.cons hone (.cons (hplain (Decimal.spells_toString 2)) (.cons hone .nil))))

theorem observer_draws_three_of_four : ∃ claimed b,
    (((new setOfFour .standard).run openFour).challenge (hostChain 60) ⟨0⟩).1 = .ok b ∧
      claimed.ones = [0, 1, 2, 3] ∧ b.ones = [0, 2, 3] ∧
      respond ["challenge", "--validators=4", hex (.zero : Hash), "3, 0,1,2,1"] =
        .ok ⟨textOfFour, none⟩ ∧
      PrintsChallenge textOfFour claimed b := by
  obtain ⟨b, hb, hdrawn⟩ := Option.map_eq_some_iff.1 challenge_openFour
  have hchallenge := eq_ok_of_toOption_eq_some hb
  obtain ⟨session, seed, hsession, hseed, hshown⟩ := observer_draws_challenge hchallenge
  obtain ⟨hset, hclaim⟩ := opened_openFour hsession
  obtain ⟨hlen, hones, htext⟩ := claim_four hclaim
  have hzero : some .zero = some seed := hseed
  cases hzero
  have hspells : SpellsClaim (argumentsOf [.joined "validators" "4", .positional (hex (.zero : Hash)),
      .positional "3, 0,1,2,1"]) .zero session.claimed 4 := by
    refine ⟨⟨_, _, _, rfl, Hex.spells_render _, lists_four, fun p => ?_⟩,
      ⟨"4", rfl, Decimal.spells_toString 4⟩, by decide, by decide, rfl⟩
    rw [← Bitfield.mem_ones, hones]
    grind
  obtain ⟨output, hrespond, hprints⟩ := hshown _ (by rw [hset]; exact hspells)
  have hline := respond_challenge (by rw [hlen]; exact hspells)
  rw [hlen, htext] at hline
  obtain rfl : output = textOfFour := congrArg Report.output (Except.ok.inj (hrespond.symm.trans hline))
  exact ⟨session.claimed, b, hchallenge, hones, hdrawn, hline, (hprints _ _).2 ⟨rfl, rfl⟩⟩

end Sample

end Client

end FinalityBridge
