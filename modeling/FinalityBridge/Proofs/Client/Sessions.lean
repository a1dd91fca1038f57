import FinalityBridge.Proofs.Client.Signers

/-!
# The sessions of a light client

Between any two calls, every id that has been given out is the id of one session, which is pending or
has ended, and a pending session claims a quorum of the validator set that it keeps (`Consistent`). A
call changes little of it: what has ended stays as it ended, what is pending stays as it was opened,
and only its own completion completes a session (`Step.KeepsSessions`). Main statement: this holds
along every run in which ids do not run out (`consistent_run`).
-/

namespace FinalityBridge

variable {step : Step} {session : Session} {id : SessionId} {status : SessionStatus}

/-! ## What a step does to statuses -/

namespace Step

-- How a session has ended does not change.
theorem status?_after_of_ended (hwell : step.client.sessions.WellFormed)
    (h : step.client.sessions.status? id = some status) (hne : status ≠ .pending) :
    step.after.sessions.status? id = some status := by
  rcases SessionStore.isSome_outcome?_of_status? h hne with ⟨hsession, houtcome⟩
  cases step.effect with
  | opens make hopens hafter =>
    have hnew : id ≠ step.client.sessions.nextId := by
      rcases Option.isSome_iff_exists.1 houtcome with ⟨outcome, houtcome⟩
      rintro rfl
      exact absurd (hwell.outcome_lt _ outcome houtcome) (UInt64.lt_irrefl _)
    rw [hafter]
    dsimp only
    rw [SessionStore.status?_insert hopens.id_eq hwell.session?_nextId, if_neg hnew, h]
  | completes ended commitment hended _ hafter =>
    have hother : id ≠ ended.id := by
      rintro rfl
      rw [hsession] at hended
      cases hended
    rw [hafter]
    show (step.client.sessions.finish ended.id .completed).status? id = _
    rw [SessionStore.status?_finish, if_neg fun heq => hother heq.1, h]
  | expires ids hafter =>
    rw [hafter, Client.status?_expire, hsession, if_neg (fun heq => nomatch heq.2), h]
  | rotates _ hafter => rw [hafter]; exact h

-- A session becomes completed in its own completion and in no other step.
theorem status?_after_completed_iff (hwell : step.client.sessions.WellFormed) :
    step.client.sessions.status? id ≠ some .completed ∧
        step.after.sessions.status? id = some .completed ↔
      ∃ commitment, step.completed? = some (id, commitment) := by
  cases step.effect with
  | opens make hopens hafter _ hcompleted =>
    rw [hafter, hcompleted]
    dsimp only
    rw [SessionStore.status?_insert hopens.id_eq hwell.session?_nextId]
    by_cases hid : id = step.client.sessions.nextId
    · rw [if_pos hid]
      simp
    · rw [if_neg hid]
      simp
  | completes ended commitment hended _ hafter _ hcompleted =>
    rw [hafter, hcompleted]
    have hstatus := SessionStore.status?_finish step.client.sessions ended.id id .completed
    rw [show (step.client.conclude ended.id commitment).sessions.status? id = _ from hstatus]
    by_cases hid : id = ended.id
    · subst hid
      have hpending : step.client.sessions.status? ended.id = some .pending :=
        SessionStore.status?_eq_pending_iff.2 ⟨ended, hended⟩
      rw [hpending, hended]
      simp [Outcome.status]
    · rw [if_neg fun heq => hid heq.1]
      simp [Ne.symm hid]
  | expires ids hafter _ hcompleted =>
    rw [hafter, hcompleted, Client.status?_expire]
    split
    · simp
    · simp
  | rotates _ hafter _ hcompleted => rw [hafter, hcompleted]; simp

-- A session that stays pending stays as it is.
theorem eq_of_session?_after (hwell : step.client.sessions.WellFormed) {later : Session}
    (h : step.client.sessions.session? id = some session)
    (hafter : step.after.sessions.session? id = some later) : later = session := by
  have hopened : step.opened? ≠ some id := by
    rcases nextId_after step with ⟨hopened, -⟩ | ⟨hopened, -⟩
    · rw [hopened]
      exact nofun
    · rw [hopened]
      rintro heq
      cases heq
      rw [hwell.session?_nextId] at h
      cases h
  have hbefore := session?_of_after hopened hafter
  rw [h] at hbefore
  exact (Option.some.inj hbefore).symm

end Step

/-! ## What holds between calls -/

/-- A session claims a quorum of its validator set, which is not later than the active one. -/
structure Session.WellFormed (session : Session) (active : ValidatorSet) : Prop where
  len_claimed : session.claimed.len = session.validatorSet.len
  one_le_len : 1 ≤ session.validatorSet.len.toNat
  quorum : 2 * session.validatorSet.len.toNat < 3 * session.claimed.count
  length_words : session.claimed.words.length = (session.validatorSet.len.toNat + 63) / 64
  bit_beyond : ∀ p, session.validatorSet.len.toNat ≤ p →
    Bitfield.bit session.claimed.words p = false
  id_le : session.validatorSet.id ≤ active.id

/-- The sessions of a light client are in order. -/
structure Client.Consistent (client : Client) : Prop where
  isSome_status? : ∀ id, (client.sessions.status? id).isSome ↔
    id.value < client.sessions.nextId.value
  perm_ids : client.sessions.ids.Perm client.sessions.issued
  not_both : ∀ id ∈ client.sessions.pending.map (·.id), id ∉ client.sessions.finished.map (·.1)
  isSome_session? : ∀ id, (client.sessions.session? id).isSome ↔
    client.sessions.status? id = some .pending
  isSome_outcome? : ∀ id, (client.sessions.outcome? id).isSome ↔
    client.sessions.status? id = some .completed ∨ client.sessions.status? id = some .expired
  wellFormed : ∀ session ∈ client.sessions.pending, session.WellFormed client.validatorSet

/-- What a step leaves of the sessions that there are. -/
structure Step.KeepsSessions (step : Step) : Prop where
  ended : ∀ id status, step.client.sessions.status? id = some status → status ≠ .pending →
    step.after.sessions.status? id = some status
  pending : ∀ id session later, step.client.sessions.session? id = some session →
    step.after.sessions.session? id = some later → later = session
  completed : ∀ id, step.client.sessions.status? id ≠ some .completed ∧
      step.after.sessions.status? id = some .completed ↔
    ∃ commitment, step.completed? = some (id, commitment)
  nextId : step.after.sessions.nextId.value.toNat =
    step.client.sessions.nextId.value.toNat + if step.opened?.isSome then 1 else 0

namespace Client

variable {initial : ValidatorSet} {config : Config} {calls : List Call} {call : Call}

theorem wellFormed_of_mem_pending (h : session ∈ ((new initial config).run calls).sessions.pending) :
    session.WellFormed ((new initial config).run calls).validatorSet := by
  rcases claimed_of_mem_pending h with ⟨hlen, hquorum⟩
  have hpos : 1 ≤ session.claimed.len.toNat := Bitfield.one_le_len_of_quorum (by rwa [hlen])
  have hwords := session.claimed.length_words
  have hbits := session.claimed.bit_eq_false
  rw [hlen] at hpos hwords hbits
  unfold FinalityBridge.quorum at hquorum
  refine ⟨hlen, hpos, by omega, hwords, hbits, ?_⟩
  rcases exists_active_of_mem_pending h with ⟨before, after, rfl, hset⟩
  rw [hset, run_append]
  exact id_validatorSet_le_run _ after

theorem consistent_of_new (hcount : ((new initial config).openings calls).length < 2 ^ 64) :
    ((new initial config).run calls).Consistent := by
  have hperm := perm_ids_of_new hcount
  have hwell := wellFormed_of_new hcount
  have hnodup := hperm.nodup_iff.2 (SessionStore.nodup_issued _)
  refine ⟨fun id => ?_, hperm, ?_, fun id => ?_, fun id => ⟨fun houtcome => ?_, fun hstatus => ?_⟩,
    fun session h => wellFormed_of_mem_pending h⟩
  · rw [SessionStore.isSome_status?_iff, ← SessionStore.mem_ids, hperm.mem_iff, SessionStore.mem_issued]
  · intro id hpending hfinished
    exact (List.nodup_append.1 hnodup).2.2 id hpending id hfinished rfl
  · rw [SessionStore.status?_eq_pending_iff, Option.isSome_iff_exists]
  · rcases Option.isSome_iff_exists.1 houtcome with ⟨outcome, houtcome⟩
    rw [SessionStore.status?_of_outcome? (hwell.session?_of_outcome? houtcome) houtcome]
    cases outcome with
    | completed => exact .inl rfl
    | expired => exact .inr rfl
  · rcases hstatus with hstatus | hstatus
    · exact (SessionStore.isSome_outcome?_of_status? hstatus (by decide)).2
    · exact (SessionStore.isSome_outcome?_of_status? hstatus (by decide)).2

/-- Between any two calls the sessions of a light client are in order, and no call changes more of
them than it may, as long as ids do not run out. -/
theorem consistent_run (hcount : ((new initial config).openings calls).length < 2 ^ 64) :
    ((new initial config).run calls).Consistent ∧
      ∀ call, ((new initial config).openings (calls ++ [call])).length < 2 ^ 64 →
        Step.KeepsSessions ⟨(new initial config).run calls, call⟩ := by
  refine ⟨consistent_of_new hcount, fun call hnext => ?_⟩
  have hwell := wellFormed_of_new hcount
  refine ⟨fun id status => Step.status?_after_of_ended hwell,
    fun id session later => Step.eq_of_session?_after hwell,
    fun id => Step.status?_after_completed_iff hwell, ?_⟩
  rw [openings_append, List.length_append, openings_cons, List.length_append] at hnext
  have hvalue := nextId_run (new initial config) calls
  rw [show (new initial config).sessions.nextId.value = 0 from rfl, UInt64.zero_add] at hvalue
  have hlength : ((new initial config).run calls).sessions.nextId.value.toNat =
      ((new initial config).openings calls).length := by
    rw [hvalue, UInt64.toNat_ofNat_of_lt' hcount]
  rcases nextId_after ((new initial config).run calls) call with ⟨hopened, hid⟩ | ⟨hopened, hid⟩
  · show ((Client.run _ calls).after call).sessions.nextId.value.toNat = _
    rw [hopened, hid]
    rfl
  · rw [hopened, Option.toList_some, List.length_singleton] at hnext
    show ((Client.run _ calls).after call).sessions.nextId.value.toNat = _
    rw [hopened, hid, UInt64.toNat_add, hlength]
    simp only [UInt64.toNat_one, Option.isSome_some, if_true]
    omega

namespace Sample

/-- The session of the small run is completed. -/
def completion : Call := .complete (hostChain 60) ⟨0⟩ .zero submission

/-- The step that completes it. -/
def completionStep : Step := ⟨(new validatorSet .standard).run openAndRotate, completion⟩

theorem keepsSessions_completionStep :
    completionStep.client.Consistent ∧ completionStep.KeepsSessions ∧
      completionStep.client.sessions.status? ⟨0⟩ ≠ some .completed ∧
      completionStep.after.sessions.status? ⟨0⟩ = some .completed := by
  have hnext : ((new validatorSet .standard).openings (openAndRotate ++ [completion])).length < 2 ^ 64 := by
    have hle := length_openings_le (new validatorSet .standard) (openAndRotate ++ [completion])
    have hlen : (openAndRotate ++ [completion]).length = 3 := rfl
    omega
  rcases consistent_run length_openings_lt with ⟨hconsistent, hsteps⟩
  have hkeeps : completionStep.KeepsSessions := hsteps completion hnext
  have hcompleted : completionStep.completed? = some (⟨0⟩, commitment) :=
    congrArg (fun reply => reply.toOption.map fun _ => (SessionId.mk 0, commitment)) complete_eq_ok
  exact ⟨hconsistent, hkeeps, (hkeeps.completed ⟨0⟩).2 ⟨commitment, hcompleted⟩⟩

end Sample

end Client

end FinalityBridge
