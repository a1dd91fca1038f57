import FinalityBridge.Proofs.Client.History

/-!
# Refused calls

A refused call leaves a light client as it was, but for one case. A session whose seed is not retained
any longer expires when anyone asks for its challenge or its submitter tries to complete it, and then
nothing else changes. Main statement: `atomic`.
-/

namespace FinalityBridge.Client

variable {client : Client} {chain : HostChain} {session : Session} {id : SessionId}
  {caller : Address} {complete : CompleteCommitment}

/-- The client as it is without a session. -/
def without (client : Client) (id : SessionId) : Client :=
  { client with sessions := client.sessions.without id }

/-- A session moves from pending to expired, and nothing else changes. -/
structure Expires (id : SessionId) (before after : Client) : Prop where
  pending : before.sessions.status? id = some .pending
  expired : after.sessions.status? id = some .expired
  others : after.without id = before.without id

/-- A session is pending, and its seed is retained no longer. -/
structure Overdue (client : Client) (chain : HostChain) (session : Session) : Prop where
  pending : client.sessions.session? session.id = some session
  beyond : session.lockBlock.toNat + client.config.seedRetention.toNat < chain.current.toNat

theorem expires_finish (hsession : client.sessions.session? id = some session) :
    Expires id client (client.finish id .expired) where
  pending := SessionStore.status?_eq_pending_iff.2 ⟨session, hsession⟩
  expired := SessionStore.status?_finish_self hsession .expired
  others := by
    unfold without finish
    rw [SessionStore.without_finish]

/-! ## Overdue sessions -/

theorem Overdue.closed (h : client.Overdue chain session) :
    session.window chain.current client.config.seedRetention = .closed :=
  Session.window_eq_closed_iff.2 h.beyond

theorem overdue_of_closed (hsession : client.sessions.session? id = some session)
    (hclosed : session.window chain.current client.config.seedRetention = .closed) :
    client.Overdue chain session ∧ session.id = id := by
  obtain rfl := (SessionStore.mem_of_session? hsession).2
  exact ⟨⟨hsession, Session.window_eq_closed_iff.1 hclosed⟩, rfl⟩

theorem Overdue.challenge_expires (h : client.Overdue chain session) :
    (client.challenge chain session.id).1 = .error (.seedUnavailable session.lockBlock) ∧
      Expires session.id client (client.challenge chain session.id).2 := by
  rw [challenge_of_closed h.pending h.closed]
  exact ⟨rfl, expires_finish h.pending⟩

theorem Overdue.complete_expires (h : client.Overdue chain session) (complete : CompleteCommitment) :
    (client.complete chain session.id session.submitter complete).1 = .error (.expired session.id) ∧
      Expires session.id client (client.complete chain session.id session.submitter complete).2 := by
  rw [complete_of_closed h.pending h.closed]
  exact ⟨rfl, expires_finish h.pending⟩

/-! ## What refused calls leave -/

theorem initiate_of_error {new : NewCommitment} {e : Error}
    (h : (client.initiate chain new).1 = .error e) : (client.initiate chain new).2 = client := by
  rcases initiate_cases client chain new with ⟨claimed, hcheck⟩ | ⟨e, heq⟩
  · rw [initiate_of_checkNew chain hcheck] at h
    cases h
  · rw [heq]

theorem rotate_of_error {next : ValidatorSet} {e : Error} (h : (client.rotate next).1 = .error e) :
    (client.rotate next).2 = client := by
  rcases rotate_cases client next with ⟨-, heq⟩ | ⟨e, heq⟩
  · rw [heq] at h
    cases h
  · rw [heq]

theorem cancel_of_error {e : Error} (h : (client.cancel id caller).1 = .error e) :
    (client.cancel id caller).2 = client := by
  rcases cancel_cases client id caller with ⟨-, heq⟩ | ⟨e, heq⟩
  · rw [heq] at h
    cases h
  · rw [heq]

theorem complete_of_error {e : Error}
    (hdue : ∀ session, client.Overdue chain session → session.id = id → caller ≠ session.submitter)
    (h : (client.complete chain id caller complete).1 = .error e) :
    (client.complete chain id caller complete).2 = client := by
  rcases complete_cases client chain id caller complete with
    ⟨session, seed, payload, hsession, hcompletes⟩ | ⟨session, hsession, hcaller, hclosed⟩ |
    ⟨e, heq⟩
  · rw [hcompletes.complete_eq hsession] at h
    cases h
  · rcases overdue_of_closed hsession hclosed with ⟨hoverdue, hid⟩
    exact absurd hcaller (hdue session hoverdue hid)
  · rw [heq]

-- Nobody but its submitter does anything to a session by trying to complete it.
theorem complete_of_no_submitter
    (h : ∀ session, client.sessions.session? id = some session → caller ≠ session.submitter) :
    ∃ e, client.complete chain id caller complete = (.error e, client) := by
  cases hsession : client.sessions.session? id with
  | none => exact complete_of_not_pending hsession chain caller complete
  | some session => exact ⟨_, complete_of_other hsession (h session hsession) chain complete⟩

/-- What calls leave of a client when they are refused. -/
structure Atomic (client : Client) : Prop where
  initiate : ∀ chain new e, (client.initiate chain new).1 = .error e →
    (client.initiate chain new).2 = client
  rotate : ∀ next e, (client.rotate next).1 = .error e → (client.rotate next).2 = client
  cancel : ∀ id caller e, (client.cancel id caller).1 = .error e →
    (client.cancel id caller).2 = client
  -- A challenge changes nothing even if it is given.
  challenge : ∀ chain id, (∀ session, client.Overdue chain session → session.id ≠ id) →
    (client.challenge chain id).2 = client
  complete : ∀ chain id caller complete e,
    (∀ session, client.Overdue chain session → session.id = id → caller ≠ session.submitter) →
    (client.complete chain id caller complete).1 = .error e →
    (client.complete chain id caller complete).2 = client
  -- The one case in which something changes.
  challenge_overdue : ∀ chain session, client.Overdue chain session →
    (client.challenge chain session.id).1 = .error (.seedUnavailable session.lockBlock) ∧
      Expires session.id client (client.challenge chain session.id).2
  complete_overdue : ∀ chain session complete, client.Overdue chain session →
    (client.complete chain session.id session.submitter complete).1 = .error (.expired session.id) ∧
      Expires session.id client (client.complete chain session.id session.submitter complete).2
  -- Cases in which nothing changes.
  challenge_ok : ∀ chain id challenged, (client.challenge chain id).1 = .ok challenged →
    (client.challenge chain id).2 = client
  complete_other : ∀ chain id caller complete,
    (∀ session, client.sessions.session? id = some session → caller ≠ session.submitter) →
    ∃ e, client.complete chain id caller complete = (.error e, client)
  no_hash : ∀ chain session complete, client.sessions.session? session.id = some session →
    session.lockBlock.toNat ≤ chain.current.toNat →
    chain.current.toNat ≤ session.lockBlock.toNat + client.config.seedRetention.toNat →
    chain.hash? session.lockBlock = none →
    client.challenge chain session.id = (.error (.seedUnavailable session.lockBlock), client) ∧
      client.complete chain session.id session.submitter complete =
        (.error (.seedUnavailable session.lockBlock), client)

/-- A refused call changes nothing, but for the session that it finds overdue. -/
theorem atomic (client : Client) : client.Atomic where
  initiate _ _ _ h := initiate_of_error h
  rotate _ _ h := rotate_of_error h
  cancel _ _ _ h := cancel_of_error h
  challenge chain id hdue := by
    rcases challenge_cases client chain id with ⟨session, hsession, hclosed⟩ | heq
    · rcases overdue_of_closed hsession hclosed with ⟨hoverdue, hid⟩
      exact absurd hid (hdue session hoverdue)
    · exact heq
  complete _ _ _ _ _ hdue h := complete_of_error hdue h
  challenge_overdue _ _ h := h.challenge_expires
  complete_overdue _ _ complete h := h.complete_expires complete
  challenge_ok chain id challenged h := by
    rcases challenge_cases client chain id with ⟨session, hsession, hclosed⟩ | heq
    · rw [challenge_of_closed hsession hclosed] at h
      cases h
    · exact heq
  complete_other _ _ _ _ h := complete_of_no_submitter h
  no_hash chain session complete hsession hfrom hto hnone := by
    have hopened := Session.window_eq_opened_iff.2 ⟨hfrom, hto⟩
    refine ⟨?_, complete_of_forgotten hsession hopened hnone complete⟩
    rw [challenge_of_pending hsession, seed_of_forgotten hopened hnone, lapse_of_opened hopened]
    rfl

namespace Sample

-- At block 1000 the session of the small run is overdue.
theorem overdue_expires : ∃ session,
    ((new validatorSet .standard).run openAndRotate).Overdue (hostChain 1000) session ∧
      Expires session.id ((new validatorSet .standard).run openAndRotate)
        (((new validatorSet .standard).run openAndRotate).challenge (hostChain 1000) session.id).2 ∧
      (((new validatorSet .standard).run openAndRotate).complete (hostChain 1000) session.id
        session.submitter submission).1 = .error (.expired session.id) := by
  rcases complete_eq_ok_iff.1 complete_eq_ok with ⟨session, seed, hsession, hcompletes⟩
  have hconfig := config_run (new validatorSet .standard) openAndRotate
  have hlock := (Session.window_eq_opened_iff.1 hcompletes.opened).1
  have hretention : (new validatorSet .standard).config.seedRetention.toNat = 256 := rfl
  have hfrom : (hostChain 60).current.toNat = 60 := rfl
  have hto : (hostChain 1000).current.toNat = 1000 := rfl
  generalize (new validatorSet .standard).run openAndRotate = client at hsession hconfig ⊢
  have hoverdue : client.Overdue (hostChain 1000) session := by
    refine ⟨?_, ?_⟩
    · rw [(SessionStore.mem_of_session? hsession).2]
      exact hsession
    · rw [hconfig]
      omega
  exact ⟨session, hoverdue, ((atomic client).challenge_overdue _ session hoverdue).2,
    ((atomic client).complete_overdue _ session submission hoverdue).1⟩

end Sample

end FinalityBridge.Client
