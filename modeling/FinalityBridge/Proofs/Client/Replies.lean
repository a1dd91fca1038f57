import FinalityBridge.Proofs.Client.Checks

/-!
# Replies of the light client

What each operation replies and which client it leaves, case by case: whether the session is pending,
where the host chain stands relative to it, and who calls. A completion succeeds exactly if the session
is pending and all that is asked for holds (`complete_eq_ok_iff`).
-/

namespace FinalityBridge.Client

variable {client : Client} {chain : HostChain} {session : Session} {id : SessionId}
  {caller : Address} {seed : Hash} {complete : CompleteCommitment} {payload : VerifiedPayload}

/-! ## Openings -/

theorem initiate_of_checkNew (chain : HostChain) {new : NewCommitment} {claimed : Bitfield}
    (h : client.checkNew new = .ok claimed) :
    client.initiate chain new = (.ok client.sessions.nextId,
      { client with sessions := client.sessions.insert (client.newSession chain new claimed) }) := by
  unfold initiate
  rw [h]

-- A session opens if the checks go through, and else nothing happens.
theorem initiate_cases (client : Client) (chain : HostChain) (new : NewCommitment) :
    (∃ claimed, client.checkNew new = .ok claimed) ∨
    ∃ e, client.initiate chain new = (.error e, client) := by
  cases hcheck : client.checkNew new with
  | error e =>
    refine .inr ⟨e, ?_⟩
    unfold initiate
    rw [hcheck]
  | ok claimed => exact .inl ⟨claimed, rfl⟩

theorem id_of_initiate {new : NewCommitment} (h : (client.initiate chain new).1 = .ok id) :
    id = client.sessions.nextId := by
  rcases initiate_cases client chain new with ⟨claimed, hcheck⟩ | ⟨e, heq⟩
  · rw [initiate_of_checkNew chain hcheck] at h
    injection h with h
    exact h.symm
  · rw [heq] at h
    cases h

/-! ## Seeds -/

/-- The client after a look at a pending session, which expires if its window is closed. -/
def lapse (client : Client) (chain : HostChain) (session : Session) : Client :=
  if session.window chain.current client.config.seedRetention = .closed then
    client.finish session.id .expired
  else client

theorem snd_seed (client : Client) (chain : HostChain) (session : Session) :
    (client.seed chain session).2 = client.lapse chain session := by
  unfold Client.seed lapse
  cases session.window chain.current client.config.seedRetention with
  | locked => rfl
  | closed => rfl
  | opened => cases chain.hash? session.lockBlock <;> rfl

-- A seed is had in an open window only.
theorem seed_eq_ok_iff :
    (client.seed chain session).1 = .ok seed ↔
      session.window chain.current client.config.seedRetention = .opened ∧
        chain.hash? session.lockBlock = some seed := by
  unfold Client.seed
  cases session.window chain.current client.config.seedRetention with
  | locked => simp
  | closed => simp
  | opened =>
    cases chain.hash? session.lockBlock with
    | none => simp
    | some hash => simp

theorem seed_of_closed
    (hclosed : session.window chain.current client.config.seedRetention = .closed) :
    (client.seed chain session).1 = .error (.seedUnavailable session.lockBlock) := by
  unfold Client.seed
  rw [hclosed]

theorem seed_of_forgotten
    (hopened : session.window chain.current client.config.seedRetention = .opened)
    (hseed : chain.hash? session.lockBlock = none) :
    (client.seed chain session).1 = .error (.seedUnavailable session.lockBlock) := by
  unfold Client.seed
  rw [hopened]
  dsimp only
  rw [hseed]

theorem lapse_of_closed (hsession : client.sessions.session? id = some session)
    (hclosed : session.window chain.current client.config.seedRetention = .closed) :
    client.lapse chain session = client.finish id .expired := by
  unfold lapse
  rw [if_pos hclosed, (SessionStore.mem_of_session? hsession).2]

theorem lapse_of_not_closed
    (h : session.window chain.current client.config.seedRetention ≠ .closed) :
    client.lapse chain session = client := by
  unfold lapse
  rw [if_neg h]

theorem lapse_of_opened
    (hopened : session.window chain.current client.config.seedRetention = .opened) :
    client.lapse chain session = client :=
  lapse_of_not_closed (by rw [hopened]; exact nofun)

theorem status?_lapse (hsession : client.sessions.session? id = some session) :
    (client.lapse chain session).sessions.status? id = some .expired ↔
      session.window chain.current client.config.seedRetention = .closed := by
  by_cases hclosed : session.window chain.current client.config.seedRetention = .closed
  · rw [lapse_of_closed hsession hclosed]
    exact iff_of_true (SessionStore.status?_finish_self hsession .expired) hclosed
  · have hpending := SessionStore.status?_eq_pending_iff.2 ⟨session, hsession⟩
    rw [lapse_of_not_closed hclosed, hpending]
    exact iff_of_false nofun hclosed

/-! ## Challenges -/

theorem challenge_of_not_pending (h : client.sessions.session? id = none) (chain : HostChain) :
    ∃ e, client.challenge chain id = (.error e, client) := by
  rcases SessionStore.exists_get_eq_error h with ⟨e, hget⟩
  unfold challenge
  rw [hget]
  cases e <;> exact ⟨_, rfl⟩

theorem challenge_of_pending (hsession : client.sessions.session? id = some session)
    (chain : HostChain) :
    client.challenge chain id =
      ((client.seed chain session).1.map fun seed => challengeOf seed session,
        client.lapse chain session) := by
  unfold challenge
  rw [SessionStore.get_eq_ok_iff.2 hsession, ← snd_seed]
  dsimp only
  rcases client.seed chain session with ⟨reply, after⟩
  cases reply <;> rfl

theorem challenge_of_opened (hsession : client.sessions.session? id = some session)
    (hopened : session.window chain.current client.config.seedRetention = .opened)
    (hseed : chain.hash? session.lockBlock = some seed) :
    client.challenge chain id = (.ok (challengeOf seed session), client) := by
  rw [challenge_of_pending hsession, seed_eq_ok_iff.2 ⟨hopened, hseed⟩, lapse_of_opened hopened]
  rfl

theorem challenge_of_closed (hsession : client.sessions.session? id = some session)
    (hclosed : session.window chain.current client.config.seedRetention = .closed) :
    client.challenge chain id =
      (.error (.seedUnavailable session.lockBlock), client.finish id .expired) := by
  rw [challenge_of_pending hsession, seed_of_closed hclosed, lapse_of_closed hsession hclosed]
  rfl

/-- A challenge is given exactly if the session is pending, its window is open and the seed is known. -/
theorem challenge_eq_ok_iff {challenged : Bitfield} :
    (client.challenge chain id).1 = .ok challenged ↔
      ∃ session seed, client.sessions.session? id = some session ∧
        session.window chain.current client.config.seedRetention = .opened ∧
        chain.hash? session.lockBlock = some seed ∧ challenged = challengeOf seed session := by
  constructor
  · intro h
    cases hsession : client.sessions.session? id with
    | none =>
      obtain ⟨e, heq⟩ := challenge_of_not_pending hsession chain
      rw [heq] at h
      cases h
    | some session =>
      rw [challenge_of_pending hsession] at h
      cases hseed : (client.seed chain session).1 with
      | error e =>
        rw [hseed] at h
        cases h
      | ok seed =>
        rw [hseed] at h
        cases h
        obtain ⟨hopened, hhash⟩ := seed_eq_ok_iff.1 hseed
        exact ⟨session, seed, rfl, hopened, hhash, rfl⟩
  · rintro ⟨session, seed, hsession, hopened, hhash, rfl⟩
    rw [challenge_of_opened hsession hopened hhash]

-- A challenge does nothing, or it finds the window of the session closed.
theorem challenge_cases (client : Client) (chain : HostChain) (id : SessionId) :
    (∃ session, client.sessions.session? id = some session ∧
      session.window chain.current client.config.seedRetention = .closed) ∨
    (client.challenge chain id).2 = client := by
  cases hsession : client.sessions.session? id with
  | none =>
    rcases challenge_of_not_pending hsession chain with ⟨e, heq⟩
    exact .inr (congrArg Prod.snd heq)
  | some session =>
    by_cases hclosed : session.window chain.current client.config.seedRetention = .closed
    · exact .inl ⟨session, rfl, hclosed⟩
    · rw [challenge_of_pending hsession]
      exact .inr (lapse_of_not_closed hclosed)

/-! ## Completions -/

theorem complete_of_not_pending (h : client.sessions.session? id = none) (chain : HostChain)
    (caller : Address) (complete : CompleteCommitment) :
    ∃ e, client.complete chain id caller complete = (.error e, client) := by
  rcases SessionStore.exists_get_eq_error h with ⟨e, hget⟩
  unfold Client.complete
  rw [hget]
  exact ⟨e, rfl⟩

theorem complete_of_other (hsession : client.sessions.session? id = some session)
    (hcaller : caller ≠ session.submitter) (chain : HostChain) (complete : CompleteCommitment) :
    client.complete chain id caller complete = (.error (.notSubmitter id), client) := by
  unfold Client.complete
  rw [SessionStore.get_eq_ok_iff.2 hsession]
  exact if_pos hcaller

theorem complete_of_submitter (hsession : client.sessions.session? id = some session)
    (chain : HostChain) (complete : CompleteCommitment) :
    client.complete chain id session.submitter complete =
      match (client.seed chain session).1 with
      | .error e =>
        (.error (if session.window chain.current client.config.seedRetention = .closed then
          .expired id else e), client.lapse chain session)
      | .ok seed =>
        match client.checkComplete session seed complete with
        | .error e => (.error e, client)
        | .ok payload => (.ok payload, client.conclude id complete.commitment) := by
  have hok := @seed_eq_ok_iff client chain session
  have hafter := snd_seed client chain session
  have hstatus := @status?_lapse client chain session id hsession
  unfold Client.complete
  rw [SessionStore.get_eq_ok_iff.2 hsession]
  dsimp only
  rw [if_neg (Decidable.not_not.2 rfl)]
  rcases hseed : client.seed chain session with ⟨reply, after⟩
  rw [hseed] at hok hafter
  dsimp only at hafter
  cases reply with
  | error e =>
    dsimp only
    rw [hafter]
    simp only [hstatus]
    split <;> rfl
  | ok seed =>
    obtain rfl : after = client := hafter.trans (lapse_of_opened (hok.1 rfl).1)
    rfl

theorem complete_of_closed (hsession : client.sessions.session? id = some session)
    (hclosed : session.window chain.current client.config.seedRetention = .closed)
    (complete : CompleteCommitment) :
    client.complete chain id session.submitter complete =
      (.error (.expired id), client.finish id .expired) := by
  rw [complete_of_submitter hsession, seed_of_closed hclosed]
  dsimp only
  rw [if_pos hclosed, lapse_of_closed hsession hclosed]

theorem complete_of_forgotten (hsession : client.sessions.session? id = some session)
    (hopened : session.window chain.current client.config.seedRetention = .opened)
    (hseed : chain.hash? session.lockBlock = none) (complete : CompleteCommitment) :
    client.complete chain id session.submitter complete =
      (.error (.seedUnavailable session.lockBlock), client) := by
  rw [complete_of_submitter hsession, seed_of_forgotten hopened hseed]
  dsimp only
  rw [if_neg (by rw [hopened]; exact nofun), lapse_of_opened hopened]

/-- When a submission completes a pending session with a result. -/
structure Completes (client : Client) (chain : HostChain) (session : Session) (caller : Address)
    (seed : Hash) (complete : CompleteCommitment) (payload : VerifiedPayload) : Prop where
  caller : caller = session.submitter
  opened : session.window chain.current client.config.seedRetention = .opened
  hash : chain.hash? session.lockBlock = some seed
  accepts : client.Accepts session seed complete payload

theorem Completes.complete_eq (h : client.Completes chain session caller seed complete payload)
    (hsession : client.sessions.session? id = some session) :
    client.complete chain id caller complete = (.ok payload, client.conclude id complete.commitment) := by
  rw [h.caller, complete_of_submitter hsession, seed_eq_ok_iff.2 ⟨h.opened, h.hash⟩]
  dsimp only
  rw [checkComplete_eq_ok_iff.2 h.accepts]

-- A completion succeeds, or it finds the window of the session closed, or it does nothing.
theorem complete_cases (client : Client) (chain : HostChain) (id : SessionId) (caller : Address)
    (complete : CompleteCommitment) :
    (∃ session seed payload, client.sessions.session? id = some session ∧
      client.Completes chain session caller seed complete payload) ∨
    (∃ session, client.sessions.session? id = some session ∧ caller = session.submitter ∧
      session.window chain.current client.config.seedRetention = .closed) ∨
    ∃ e, client.complete chain id caller complete = (.error e, client) := by
  cases hsession : client.sessions.session? id with
  | none => exact .inr (.inr (complete_of_not_pending hsession chain caller complete))
  | some session =>
    by_cases hcaller : caller = session.submitter
    · subst hcaller
      by_cases hclosed : session.window chain.current client.config.seedRetention = .closed
      · exact .inr (.inl ⟨session, rfl, rfl, hclosed⟩)
      · have heq := complete_of_submitter hsession chain complete
        cases hseed : (client.seed chain session).1 with
        | error e =>
          rw [hseed] at heq
          dsimp only at heq
          rw [lapse_of_not_closed hclosed] at heq
          exact .inr (.inr ⟨_, heq⟩)
        | ok seed =>
          rw [hseed] at heq
          dsimp only at heq
          rcases seed_eq_ok_iff.1 hseed with ⟨hopened, hhash⟩
          cases hcheck : client.checkComplete session seed complete with
          | error e =>
            rw [hcheck] at heq
            exact .inr (.inr ⟨e, heq⟩)
          | ok payload =>
            exact .inl ⟨session, seed, payload, rfl, rfl, hopened, hhash,
              checkComplete_eq_ok_iff.1 hcheck⟩
    · exact .inr (.inr ⟨_, complete_of_other hsession hcaller chain complete⟩)

/-- A completion succeeds exactly if the session is pending and the submission meets all that is
asked of it. -/
theorem complete_eq_ok_iff :
    (client.complete chain id caller complete).1 = .ok payload ↔
      ∃ session seed, client.sessions.session? id = some session ∧
        client.Completes chain session caller seed complete payload := by
  constructor
  · intro h
    rcases complete_cases client chain id caller complete with
      ⟨session, seed, payload', hsession, hcompletes⟩ | ⟨session, hsession, rfl, hclosed⟩ |
      ⟨e, heq⟩
    · rw [hcompletes.complete_eq hsession] at h
      injection h with h
      subst h
      exact ⟨session, seed, hsession, hcompletes⟩
    · rw [complete_of_closed hsession hclosed] at h
      cases h
    · rw [heq] at h
      cases h
  · rintro ⟨session, seed, hsession, hcompletes⟩
    rw [hcompletes.complete_eq hsession]

/-! ## Other calls -/

theorem cancel_cases (client : Client) (id : SessionId) (caller : Address) :
    ((client.sessions.session? id).isSome ∧ client.cancel id caller = (.ok (), client.expire [id])) ∨
    ∃ e, client.cancel id caller = (.error e, client) := by
  unfold cancel
  cases hget : client.sessions.get id with
  | error e => exact .inr ⟨e, rfl⟩
  | ok session =>
    dsimp only
    by_cases hcaller : caller = session.submitter
    · rw [if_neg (Decidable.not_not.2 hcaller), SessionStore.get_eq_ok_iff.1 hget]
      exact .inl ⟨rfl, rfl⟩
    · rw [if_pos hcaller]
      exact .inr ⟨_, rfl⟩

theorem isSome_session?_of_mem_expireStale {current : BlockNumber}
    (h : id ∈ (client.expireStale current).1) : (client.sessions.session? id).isSome := by
  rcases List.mem_map.1 h with ⟨session, hsession, rfl⟩
  have hmem := (List.mem_filter.1 hsession).1
  unfold SessionStore.session?
  rw [List.find?_isSome]
  exact ⟨session, hmem, by simp⟩

theorem rotate_cases (client : Client) (next : ValidatorSet) :
    (next.id.toNat = client.validatorSet.id.toNat + 1 ∧
      client.rotate next = (.ok (), { client with validatorSet := next })) ∨
    ∃ e, client.rotate next = (.error e, client) := by
  unfold rotate ValidatorSet.rotate
  by_cases h : client.validatorSet.id.toNat + 1 = next.id.toNat
  · rw [if_pos h]
    exact .inl ⟨h.symm, rfl⟩
  · rw [if_neg h]
    exact .inr ⟨_, rfl⟩

end FinalityBridge.Client
