import FinalityBridge.Proofs.Client.Run
import FinalityBridge.Proofs.Mmr.Inclusion

/-!
# What a completion tells of the past

The history of a run lists its steps. What is shown of a single step holds along the history: an
outcome stays, the latest block does not go back, an id is given out once. Main statement: a session
is completed only if one earlier step, and no other, opened it for this very commitment, and if
nothing has ended it since (`exists_opening_of_complete`).
-/

namespace FinalityBridge.Client

/-- The steps of a run. -/
def history (client : Client) : List Call → List Step
  | [] => []
  | call :: calls => ⟨client, call⟩ :: history (client.after call) calls

/-- The ids that are given out in a run, in order. -/
def openings (client : Client) (calls : List Call) : List SessionId :=
  (client.history calls).filterMap Step.opened?

variable {client : Client} {calls : List Call} {step : Step} {session : Session} {id : SessionId}

theorem config_of_mem_history (h : step ∈ client.history calls) :
    step.client.config = client.config := by
  induction calls generalizing client with
  | nil => cases h
  | cons call calls ih =>
    rcases List.mem_cons.1 h with rfl | h
    · rfl
    · exact (ih h).trans (Step.config_after ⟨client, call⟩)

theorem config_run (client : Client) (calls : List Call) :
    (client.run calls).config = client.config := by
  induction calls generalizing client with
  | nil => rfl
  | cons call calls ih => exact (ih (client.after call)).trans (Step.config_after ⟨client, call⟩)

-- A step of a run is a call that is made after those before it.
theorem exists_calls_of_history_eq {past later : List Step}
    (h : client.history calls = past ++ step :: later) :
    ∃ before call after, calls = before ++ call :: after ∧ past = client.history before ∧
      step = ⟨client.run before, call⟩ := by
  induction calls generalizing client past with
  | nil =>
    rw [history] at h
    exact absurd h.symm (List.append_ne_nil_of_right_ne_nil past (List.cons_ne_nil step later))
  | cons call calls ih =>
    cases past with
    | nil =>
      injection h with hstep hlater
      exact ⟨[], call, calls, rfl, rfl, hstep.symm⟩
    | cons first past =>
      injection h with hfirst hrest
      rcases ih hrest with ⟨before, call', after, rfl, rfl, rfl⟩
      exact ⟨call :: before, call', after, rfl, by rw [history, hfirst], rfl⟩

theorem exists_calls_of_mem_history (h : step ∈ client.history calls) :
    ∃ before call after, calls = before ++ call :: after ∧ step = ⟨client.run before, call⟩ := by
  rcases List.append_of_mem h with ⟨past, later, hhistory⟩
  rcases exists_calls_of_history_eq hhistory with ⟨before, call, after, hcalls, -, hstep⟩
  exact ⟨before, call, after, hcalls, hstep⟩

/-! ## Active sets -/

theorem run_append (client : Client) (calls more : List Call) :
    client.run (calls ++ more) = (client.run calls).run more :=
  List.foldl_append

theorem validatorSet_after (client : Client) (call : Call) :
    Step.installed? ⟨client, call⟩ = none ∧
      (client.after call).validatorSet = client.validatorSet ∨
    ∃ next, Step.installed? ⟨client, call⟩ = some next ∧ (client.after call).validatorSet = next ∧
      next.id.toNat = client.validatorSet.id.toNat + 1 :=
  Step.validatorSet_after ⟨client, call⟩

-- The id of the active set does not go back.
theorem id_validatorSet_le_run (client : Client) (calls : List Call) :
    client.validatorSet.id ≤ (client.run calls).validatorSet.id := by
  induction calls generalizing client with
  | nil => exact UInt64.le_refl _
  | cons call calls ih =>
    refine UInt64.le_trans ?_ (ih (client.after call))
    rcases validatorSet_after client call with ⟨-, hset⟩ | ⟨next, -, hset, hid⟩
    · rw [hset]
      exact UInt64.le_refl _
    · rw [hset, UInt64.le_iff_toNat_le]
      omega

/-! ## Verified blocks -/

theorem latestBlock_le_run (client : Client) (calls : List Call) :
    client.latestBlock ≤ (client.run calls).latestBlock := by
  induction calls generalizing client with
  | nil => exact UInt64.le_refl _
  | cons call calls ih =>
    exact UInt64.le_trans (Step.latestBlock_le_after ⟨client, call⟩) (ih (client.after call))

theorem blockNumber_le_run {done : SessionId × Commitment} (hstep : step ∈ client.history calls)
    (h : step.completed? = some done) : done.2.blockNumber ≤ (client.run calls).latestBlock := by
  induction calls generalizing client with
  | nil => cases hstep
  | cons call calls ih =>
    rcases List.mem_cons.1 hstep with rfl | hstep
    · have hlatest := Step.latestBlock_of_completed? h
      rw [← hlatest]
      exact latestBlock_le_run (client.after call) calls
    · exact ih hstep

/-! ## Sessions -/

-- A session that is pending after a run was so before or was opened on the way.
theorem mem_pending_run (h : session ∈ (client.run calls).sessions.pending) :
    session ∈ client.sessions.pending ∨ ∃ step ∈ client.history calls, step.Opens session := by
  induction calls generalizing client with
  | nil => exact .inl h
  | cons call calls ih =>
    rcases ih h with h | ⟨step, hstep, hopens⟩
    · have hafter : session ∈ (Step.after ⟨client, call⟩).sessions.pending := h
      rcases Step.mem_pending_after hafter with h | hopens
      · exact .inl h
      · exact .inr ⟨⟨client, call⟩, List.mem_cons_self, hopens⟩
    · exact .inr ⟨step, List.mem_cons_of_mem _ hstep, hopens⟩

-- A pending session keeps the set that was active when it was opened.
theorem exists_active_of_mem_pending {initial : ValidatorSet} {config : Config}
    (h : session ∈ ((new initial config).run calls).sessions.pending) :
    ∃ before after, calls = before ++ after ∧
      session.validatorSet = ((new initial config).run before).validatorSet := by
  rcases mem_pending_run h with hnone | ⟨opening, hopening, hopens⟩
  · cases hnone
  · rcases exists_calls_of_mem_history hopening with ⟨before, call, after, rfl, rfl⟩
    rcases hopens with ⟨chain₀, new₀, claimed, -, -, rfl⟩
    exact ⟨before, call :: after, rfl, rfl⟩

theorem isSome_outcome?_run (calls : List Call) (h : (client.sessions.outcome? id).isSome) :
    ((client.run calls).sessions.outcome? id).isSome := by
  induction calls generalizing client with
  | nil => exact h
  | cons call calls ih =>
    have hstep : ((Step.mk client call).client.sessions.outcome? id).isSome := h
    exact ih (Step.isSome_outcome?_after hstep)

-- What has an outcome at any time has one at the end.
theorem isSome_outcome?_of_mem_history (hstep : step ∈ client.history calls)
    (h : (step.after.sessions.outcome? id).isSome) :
    ((client.run calls).sessions.outcome? id).isSome := by
  induction calls generalizing client with
  | nil => cases hstep
  | cons call calls ih =>
    rcases List.mem_cons.1 hstep with rfl | hstep
    · exact isSome_outcome?_run calls h
    · exact ih hstep

/-! ## Ids -/

theorem history_append (client : Client) (calls more : List Call) :
    client.history (calls ++ more) = client.history calls ++ (client.run calls).history more := by
  induction calls generalizing client with
  | nil => rfl
  | cons call calls ih => exact congrArg (List.cons _) (ih (client.after call))

theorem openings_append (client : Client) (calls more : List Call) :
    client.openings (calls ++ more) = client.openings calls ++ (client.run calls).openings more := by
  rw [openings, history_append, List.filterMap_append]
  rfl

theorem length_history (client : Client) (calls : List Call) :
    (client.history calls).length = calls.length := by
  induction calls generalizing client with
  | nil => rfl
  | cons call calls ih => rw [history, List.length_cons, ih, List.length_cons]

theorem length_openings_le (client : Client) (calls : List Call) :
    (client.openings calls).length ≤ calls.length := by
  have h := List.length_filterMap_le Step.opened? (client.history calls)
  rwa [length_history] at h

theorem openings_cons (client : Client) (call : Call) (calls : List Call) :
    client.openings (call :: calls) =
      (Step.opened? ⟨client, call⟩).toList ++ (client.after call).openings calls := by
  rw [openings, history, List.filterMap_cons]
  cases Step.opened? ⟨client, call⟩ <;> rfl

theorem nextId_after (client : Client) (call : Call) :
    Step.opened? ⟨client, call⟩ = none ∧
      (client.after call).sessions.nextId = client.sessions.nextId ∨
    Step.opened? ⟨client, call⟩ = some client.sessions.nextId ∧
      (client.after call).sessions.nextId = ⟨client.sessions.nextId.value + 1⟩ :=
  Step.nextId_after ⟨client, call⟩

-- A session that is pending after a run was so all the time, unless its id was given out again.
theorem session?_of_run (hid : id ∉ client.openings calls)
    (h : (client.run calls).sessions.session? id = some session) :
    client.sessions.session? id = some session := by
  induction calls generalizing client with
  | nil => exact h
  | cons call calls ih =>
    rw [openings_cons, List.mem_append, not_or, Option.mem_toList] at hid
    have hafter : (Step.after ⟨client, call⟩).sessions.session? id = some session := ih hid.2 h
    exact Step.session?_of_after hid.1 hafter

-- Ids are given out in order, from the next one on.
theorem openings_eq (client : Client) (calls : List Call) :
    client.openings calls = (List.range (client.openings calls).length).map fun k =>
      ⟨client.sessions.nextId.value + UInt64.ofNat k⟩ := by
  induction calls generalizing client with
  | nil => rfl
  | cons call calls ih =>
    have hrest := ih (client.after call)
    rw [openings_cons]
    rcases nextId_after client call with ⟨hopened, hnext⟩ | ⟨hopened, hnext⟩
    · rw [hopened, Option.toList_none, List.nil_append]
      rwa [hnext] at hrest
    · rw [hopened, Option.toList_some, List.singleton_append, List.length_cons,
        List.range_succ_eq_map, List.map_cons, List.map_map]
      congr 1
      · simp
      · rw [hnext] at hrest
        apply hrest.trans
        apply List.map_congr_left
        intro k _
        show SessionId.mk (_ + 1 + UInt64.ofNat k) = SessionId.mk (_ + UInt64.ofNat (k + 1))
        rw [UInt64.ofNat_add, UInt64.add_assoc, UInt64.add_comm 1]
        rfl

-- The next id is as many ids on as have been given out.
theorem nextId_run (client : Client) (calls : List Call) :
    (client.run calls).sessions.nextId.value =
      client.sessions.nextId.value + UInt64.ofNat (client.openings calls).length := by
  induction calls generalizing client with
  | nil => exact (UInt64.add_zero _).symm
  | cons call calls ih =>
    have hrest : (client.run (call :: calls)).sessions.nextId.value = _ := ih (client.after call)
    rw [hrest, openings_cons, List.length_append, UInt64.ofNat_add, ← UInt64.add_assoc]
    rcases nextId_after client call with ⟨hopened, hnext⟩ | ⟨hopened, hnext⟩
    · rw [hopened, hnext]
      simp
    · rw [hopened, hnext]
      rfl

-- No id is given out twice before they run out.
theorem nodup_openings (h : (client.openings calls).length ≤ 2 ^ 64) :
    (client.openings calls).Nodup := by
  rw [openings_eq]
  apply List.Nodup.map_on _ List.nodup_range
  intro a ha b hb heq
  have ha := List.mem_range.1 ha
  have hb := List.mem_range.1 hb
  have hvalue := congrArg (fun id : SessionId => id.value.toNat) heq
  simp only [UInt64.toNat_add, UInt64.toNat_ofNat'] at hvalue
  omega

theorem perm_ids_run (h : client.sessions.ids.Perm client.sessions.issued)
    (hnext : client.sessions.nextId.value.toNat + (client.openings calls).length < 2 ^ 64) :
    (client.run calls).sessions.ids.Perm (client.run calls).sessions.issued := by
  induction calls generalizing client with
  | nil => exact h
  | cons call calls ih =>
    show ((client.after call).run calls).sessions.ids.Perm _
    rw [openings_cons, List.length_append] at hnext
    rcases nextId_after client call with ⟨hopened, hid⟩ | ⟨hopened, hid⟩
    · have hafter : (client.after call).sessions.ids.Perm (client.after call).sessions.issued :=
        Step.perm_ids_after h fun hne => absurd hopened hne
      apply ih hafter
      rw [hid]
      omega
    · rw [hopened, Option.toList_some, List.length_singleton] at hnext
      have hlt : client.sessions.nextId.value.toNat + 1 < 2 ^ 64 := by omega
      have hafter : (client.after call).sessions.ids.Perm (client.after call).sessions.issued :=
        @Step.perm_ids_after ⟨client, call⟩ h fun _ => hlt
      apply ih hafter
      rw [hid, UInt64.toNat_add]
      simp only [UInt64.toNat_one]
      omega

-- In a run from a new client, every id that is given out is the id of one session.
theorem perm_ids_of_new {initial : ValidatorSet} {config : Config}
    (hcount : ((new initial config).openings calls).length < 2 ^ 64) :
    ((new initial config).run calls).sessions.ids.Perm
      ((new initial config).run calls).sessions.issued := by
  apply perm_ids_run (.refl _)
  rw [show (new initial config).sessions.nextId.value.toNat = 0 from rfl]
  omega

theorem wellFormed_of_new {initial : ValidatorSet} {config : Config}
    (hcount : ((new initial config).openings calls).length < 2 ^ 64) :
    ((new initial config).run calls).sessions.WellFormed :=
  SessionStore.wellFormed_of_perm (perm_ids_of_new hcount)

/-- A session that is still pending is as it was opened, whatever has happened since. -/
theorem session?_of_initiate {chain : HostChain} {new₀ : NewCommitment} {claimed : Bitfield}
    (hwell : client.sessions.WellFormed) (hcheck : client.checkNew new₀ = .ok claimed)
    (hcount : (client.openings (.initiate chain new₀ :: calls)).length ≤ 2 ^ 64)
    (hpending : (client.run (.initiate chain new₀ :: calls)).sessions.status?
      client.sessions.nextId = some .pending) :
    (client.run (.initiate chain new₀ :: calls)).sessions.session? client.sessions.nextId =
      some (client.newSession chain new₀ claimed client.sessions.nextId) := by
  rcases SessionStore.status?_eq_pending_iff.1 hpending with ⟨session, hsession⟩
  have hinitiate := initiate_of_checkNew chain hcheck
  have hopened : Step.opened? ⟨client, .initiate chain new₀⟩ = some client.sessions.nextId :=
    congrArg (fun reply => reply.1.toOption) hinitiate
  have hafter : client.after (.initiate chain new₀) = _ := congrArg Prod.snd hinitiate
  -- The id is not given out again, so the lookup is that of the store just after the opening.
  have hnodup := nodup_openings hcount
  rw [openings_cons, hopened, Option.toList_some, List.singleton_append, List.nodup_cons] at hnodup
  have hfirst := session?_of_run hnodup.1 hsession
  rw [hafter] at hfirst
  dsimp only at hfirst
  rw [SessionStore.session?_insert rfl, hwell.session?_nextId, if_pos rfl, Option.none_or] at hfirst
  rw [hsession, hfirst]

-- What opens a session is the only step with its id.
theorem opened?_ne_of_append {past later : List Step}
    (hcount : (client.openings calls).length ≤ 2 ^ 64)
    (hhistory : client.history calls = past ++ step :: later) (hopened : step.opened? = some id) :
    ∀ other ∈ past ++ later, other.opened? ≠ some id := by
  have hnodup := nodup_openings hcount
  rw [openings, hhistory, List.filterMap_append, List.filterMap_cons_some hopened] at hnodup
  have hnot : id ∉ (past ++ later).filterMap Step.opened? := by
    rw [List.filterMap_append]
    exact (List.nodup_cons.1 (List.perm_middle.nodup_iff.1 hnodup)).1
  intro other hother heq
  exact hnot (List.mem_filterMap.2 ⟨other, hother, heq⟩)

-- No step has ended a session that is pending.
theorem not_ended_of_mem_pending (hwell : (client.run calls).sessions.WellFormed)
    (hpending : session ∈ (client.run calls).sessions.pending) :
    ∀ step ∈ client.history calls,
      session.id ∉ step.ended ∧ step.after.sessions.outcome? session.id = none := by
  intro step hstep
  have hnone := hwell.outcome_of_pending session hpending
  have houtcome : ¬(step.after.sessions.outcome? session.id).isSome := by
    intro hsome
    -- It would have its outcome to this day.
    have hend := isSome_outcome?_of_mem_history hstep hsome
    rw [hnone] at hend
    cases hend
  refine ⟨?_, Option.not_isSome_iff_eq_none.1 houtcome⟩
  intro hended
  exact houtcome (Step.isSome_outcome?_of_mem_ended hended)

/-! ## Completions -/

/-- A session is completed only by the account that opened it, for the commitment that it was opened
for, under the validator set of that time and in its window. One step and no other has opened it,
nothing has ended it before, and every commitment that was completed before is for a lower block. -/
theorem exists_opening_of_complete {initial : ValidatorSet} {config : Config} {calls : List Call}
    {chain : HostChain} {id : SessionId} {caller : Address} {complete : CompleteCommitment}
    {payload : VerifiedPayload} (hcount : ((new initial config).openings calls).length < 2 ^ 64)
    (hok : (((new initial config).run calls).complete chain id caller complete).1 = .ok payload) :
    ∃ past opening later chain₀ new₀ lock,
      (new initial config).history calls = past ++ opening :: later ∧
      opening.call = .initiate chain₀ new₀ ∧
      (opening.client.initiate chain₀ new₀).1 = .ok id ∧
      (∀ step ∈ past ++ later, step.opened? ≠ some id) ∧
      new₀.submitter = caller ∧
      new₀.commitmentHash = Keccak.digest (Commitment.codec.encode complete.commitment) ∧
      complete.commitment.validatorSetId = opening.client.validatorSet.id ∧
      lock = min (chain₀.current.toNat + config.lockDelay.toNat) (2 ^ 64 - 1) ∧
      lock ≤ chain.current.toNat ∧ chain.current.toNat ≤ lock + config.seedRetention.toNat ∧
      (∀ step ∈ (new initial config).history calls,
        id ∉ step.ended ∧ step.after.sessions.outcome? id = none) ∧
      ∀ step ∈ (new initial config).history calls, ∀ done, step.completed? = some done →
        done.2.blockNumber < complete.commitment.blockNumber := by
  rcases complete_eq_ok_iff.1 hok with ⟨session, seed, hsession, hcompletes⟩
  rcases SessionStore.mem_of_session? hsession with ⟨hpending, rfl⟩
  -- The store of a new client is empty, so a step of the run has opened the session.
  have hopening : ∃ step ∈ (new initial config).history calls, step.Opens session := by
    rcases mem_pending_run hpending with hnone | hopens
    · cases hnone
    · exact hopens
  rcases hopening with ⟨opening, hopening, hopens⟩
  rcases List.append_of_mem hopening with ⟨past, later, hhistory⟩
  have hunique := opened?_ne_of_append (Nat.le_of_lt hcount) hhistory hopens.opened?_eq
  have hid := hopens.id_eq
  have hconfig := config_of_mem_history hopening
  rcases hopens with ⟨chain₀, new₀, claimed, hcall, hcheck, hopened⟩
  have hinitiate : (opening.client.initiate chain₀ new₀).1 = .ok session.id := by
    rw [initiate_of_checkNew chain₀ hcheck, hid]
  have hlock : session.lockBlock.toNat =
      min (chain₀.current.toNat + config.lockDelay.toNat) (2 ^ 64 - 1) := by
    rw [hopened]
    show (opening.client.lockBlock chain₀.current).toNat = _
    rw [toNat_lockBlock, hconfig]
    rfl
  have hwindow := Session.window_eq_opened_iff.1 hcompletes.opened
  rw [config_run] at hwindow
  refine ⟨past, opening, later, chain₀, new₀, session.lockBlock.toNat, hhistory, hcall, hinitiate,
    hunique, ?_, ?_, ?_, hlock, hwindow.1, hwindow.2,
    not_ended_of_mem_pending (wellFormed_of_new hcount) hpending, ?_⟩
  · rw [hcompletes.caller, hopened]
    rfl
  · have hdigest := hcompletes.accepts.digest
    rw [hopened] at hdigest
    exact hdigest.symm
  · have hset := hcompletes.accepts.validatorSetId
    rw [hopened] at hset
    exact hset
  · intro step hstep done hdone
    exact UInt64.lt_of_le_of_lt (blockNumber_le_run hstep hdone) hcompletes.accepts.newer

/-! ## A small run -/

namespace Sample

/-- Two validators. -/
def addresses : List Address :=
  [.ofNat 1143553249408862602910801741249953879464605216729,
    .ofNat 1074622069982864643824785014512050859162095506006]

/-- The set of both. -/
def validatorSet : ValidatorSet := ⟨Merkle.root Keccak.digest (addresses.map (·.bytes)), 2, 0⟩

/-- A range of two leaves. -/
def leaves : List Leaf := [MountainRange.blankLeaf 0, MountainRange.blankLeaf 1]

/-- A commitment to the range. -/
def commitment : Commitment := ⟨(MountainRange.ofLeaves leaves).root Keccak.digest, 100, 0⟩

/-- The signatures of both validators. -/
def signatures : List Signature :=
  [{ r := .ofNat 24660140378277733971065784110550538044588152408645536206113344139378663622752
     s := .ofNat 4404420362222647816850318758327122629993406118185288482811600094648939898261
     v := 1 },
    { r := .ofNat 112924685217440720787001555987587604549874025738878868731310767739318963065174
      s := .ofNat 25115822471046543544035271598669972927737866496930969379711142205817513908776
      v := 0 }]

/-- The membership proofs of both validators: each is the other's sibling. -/
def proofs : List MembershipProof :=
  [⟨addresses[0], 0, [Keccak.digest addresses[1].bytes]⟩,
    ⟨addresses[1], 1, [Keccak.digest addresses[0].bytes]⟩]

/-- The host chain at a block. -/
def hostChain (current : BlockNumber) : HostChain := ⟨current, fun _ => some .zero⟩

/-- Opens a session in which both are claimed, by the signature of the second. -/
def opening : NewCommitment := ⟨commitment.digest, 0, [3], signatures[1], proofs[1], .zero⟩

/-- The set that follows. -/
def nextSet : ValidatorSet := ⟨.zero, 0, 1⟩

/-- The session is opened, then the validator set changes. -/
def openAndRotate : List Call := [.initiate (hostChain 10) opening, .rotate nextSet]

/-- What completes the session. -/
def submission : CompleteCommitment where
  commitment
  signatures
  proofs
  leaf := (MountainRange.blankLeaf 1).encode
  leafProof := ⟨1, 2, [Leaf.digest (MountainRange.blankLeaf 0).encode]⟩

/-- What the completion shows. -/
def payload : VerifiedPayload := ⟨commitment.payload, MountainRange.blankLeaf 1⟩

theorem complete_eq_ok :
    (((new validatorSet .standard).run openAndRotate).complete (hostChain 60) ⟨0⟩ .zero submission).1 =
      .ok payload := by
  apply eq_ok_of_toOption_eq_some
  decide +kernel

theorem length_openings_lt :
    ((new validatorSet .standard).openings openAndRotate).length < 2 ^ 64 := by
  have hle := length_openings_le (new validatorSet .standard) openAndRotate
  have hlen : openAndRotate.length = 2 := rfl
  omega

theorem exists_opening_of_sample :
    (((new validatorSet .standard).run openAndRotate).complete (hostChain 60) ⟨0⟩ .zero
        submission).1 = .ok payload ∧
      ∃ step ∈ (new validatorSet .standard).history openAndRotate, ∃ chain₀ new₀,
        step.call = .initiate chain₀ new₀ ∧ new₀.submitter = .zero ∧
          new₀.commitmentHash = commitment.digest := by
  refine ⟨complete_eq_ok, ?_⟩
  rcases exists_opening_of_complete length_openings_lt complete_eq_ok with
      ⟨past, step, later, chain₀, new₀, lock, hhistory, hcall, -, -, hsubmitter, hhash, -⟩
  refine ⟨step, ?_, chain₀, new₀, hcall, hsubmitter, hhash⟩
  rw [hhistory]
  exact List.mem_append_right past List.mem_cons_self

-- The session is the one that opens for the claim over both.
theorem opened_session {session : Session}
    (h : ((new validatorSet .standard).run openAndRotate).sessions.session? ⟨0⟩ = some session) :
    session.validatorSet = validatorSet ∧
      (new validatorSet .standard).checkNew opening = .ok session.claimed := by
  rcases mem_pending_run (SessionStore.mem_of_session? h).1 with
    hnone | ⟨step, hstep, chain₀, new₀, claimed, hcall, hcheck, rfl⟩
  · cases hnone
  · rcases List.mem_cons.1 hstep with rfl | hstep
    · cases hcall
      exact ⟨rfl, hcheck⟩
    · rcases List.mem_singleton.1 hstep with rfl
      cases hcall

-- The session that is completed keeps the set of both.
theorem exists_session : ∃ session,
    ((new validatorSet .standard).run openAndRotate).sessions.session? ⟨0⟩ = some session ∧
      session.validatorSet = validatorSet := by
  rcases complete_eq_ok_iff.1 complete_eq_ok with ⟨session, seed, hsession, -⟩
  exact ⟨session, hsession, (opened_session hsession).1⟩

end Sample

end FinalityBridge.Client
