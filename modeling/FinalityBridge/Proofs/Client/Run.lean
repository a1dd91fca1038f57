import FinalityBridge.Proofs.Client.Replies

/-!
# Runs of the light client

A run is a list of calls, each with what the host chain answers at the time. Whatever a call asks
for, it opens a session, completes one, lets some expire or replaces the active set, and does nothing
else (`Step.effect`). What holds along a run follows from these four.
-/

namespace FinalityBridge

/-- A call of an operation that may change a light client. -/
inductive Call where
  | initiate (chain : HostChain) (new : NewCommitment)
  | challenge (chain : HostChain) (id : SessionId)
  | complete (chain : HostChain) (id : SessionId) (caller : Address) (complete : CompleteCommitment)
  | cancel (id : SessionId) (caller : Address)
  | expireStale (current : BlockNumber)
  | rotate (next : ValidatorSet)

namespace Client

/-- The client after a call. -/
def after (client : Client) : Call → Client
  | .initiate chain new => (client.initiate chain new).2
  | .challenge chain id => (client.challenge chain id).2
  | .complete chain id caller complete => (client.complete chain id caller complete).2
  | .cancel id caller => (client.cancel id caller).2
  | .expireStale current => (client.expireStale current).2
  | .rotate next => (client.rotate next).2

/-- The client after calls that are made one after the other. -/
def run (client : Client) (calls : List Call) : Client := calls.foldl after client

/-! ## Expiring sessions -/

section Expire

variable {client : Client} {ids : List SessionId} {session : Session}

theorem expire_eq (client : Client) (ids : List SessionId) :
    client.expire ids = { client with
      sessions := ids.foldl (fun store id => store.finish id .expired) client.sessions } := by
  induction ids generalizing client with
  | nil => rfl
  | cons id ids ih => exact ih (client.finish id .expired)

theorem nextId_expire (client : Client) (ids : List SessionId) :
    (client.expire ids).sessions.nextId = client.sessions.nextId := by
  induction ids generalizing client with
  | nil => rfl
  | cons id ids ih => exact (ih _).trans (SessionStore.nextId_finish _ _ _)

theorem pending_expire (client : Client) (ids : List SessionId) :
    (client.expire ids).sessions.pending =
      client.sessions.pending.filter fun session => session.id ∉ ids := by
  induction ids generalizing client with
  | nil => simp [expire]
  | cons id ids ih =>
    have hfinish := SessionStore.pending_finish client.sessions id .expired
    show ((client.finish id .expired).expire ids).sessions.pending = _
    rw [ih]
    show (client.sessions.finish id .expired).pending.filter _ = _
    rw [hfinish, List.filter_filter]
    apply List.filter_congr
    intro session _
    simp [Bool.and_comm]

theorem mem_pending_expire :
    session ∈ (client.expire ids).sessions.pending ↔
      session ∈ client.sessions.pending ∧ session.id ∉ ids := by
  rw [pending_expire, List.mem_filter, decide_eq_true_eq]

theorem session?_expire (client : Client) (ids : List SessionId) (id : SessionId) :
    (client.expire ids).sessions.session? id =
      if id ∈ ids then none else client.sessions.session? id := by
  induction ids generalizing client with
  | nil => simp [expire]
  | cons first ids ih =>
    show ((client.finish first .expired).expire ids).sessions.session? id = _
    have hfinish := SessionStore.session?_finish client.sessions first id .expired
    rw [ih]
    show (if id ∈ ids then none else (client.sessions.finish first .expired).session? id) = _
    rw [hfinish]
    by_cases hfirst : id = first
    · simp [hfirst]
    · simp [hfirst]

theorem outcome?_expire (client : Client) (ids : List SessionId) (id : SessionId) :
    (client.expire ids).sessions.outcome? id =
      if id ∈ ids ∧ (client.sessions.session? id).isSome then some .expired
      else client.sessions.outcome? id := by
  induction ids generalizing client with
  | nil => simp [expire]
  | cons first ids ih =>
    show ((client.finish first .expired).expire ids).sessions.outcome? id = _
    have hsession := SessionStore.session?_finish client.sessions first id .expired
    have houtcome := SessionStore.outcome?_finish client.sessions first id .expired
    rw [ih]
    show (if id ∈ ids ∧ ((client.sessions.finish first .expired).session? id).isSome
      then some Outcome.expired else (client.sessions.finish first .expired).outcome? id) = _
    rw [hsession, houtcome]
    by_cases hfirst : id = first
    · simp [hfirst]
    · simp [hfirst]

theorem status?_expire (client : Client) (ids : List SessionId) (id : SessionId) :
    (client.expire ids).sessions.status? id =
      if id ∈ ids ∧ (client.sessions.session? id).isSome then some .expired
      else client.sessions.status? id := by
  unfold SessionStore.status?
  rw [session?_expire, outcome?_expire]
  by_cases hid : id ∈ ids
  · rw [if_pos hid]
    cases client.sessions.session? id with
    | some session => simp [hid, Outcome.status]
    | none => simp
  · rw [if_neg hid, if_neg fun h => hid h.1, if_neg fun h => hid h.1]

theorem perm_ids_expire (h : client.sessions.ids.Nodup) :
    (client.expire ids).sessions.ids.Perm client.sessions.ids := by
  induction ids generalizing client with
  | nil => exact .refl _
  | cons id ids ih =>
    have hfinish := SessionStore.perm_ids_finish h id .expired
    have hrest : ((client.finish id .expired).expire ids).sessions.ids.Perm
        (client.finish id .expired).sessions.ids := ih (hfinish.nodup_iff.2 h)
    exact hrest.trans hfinish

end Expire

end Client

/-! ## Steps -/

/-- A call in a run, with the client that it is made to. -/
structure Step where
  client : Client
  call : Call

namespace Step

/-- The client after the step. -/
def after (step : Step) : Client := step.client.after step.call

/-- The session that the step opens, by its reply. -/
def opened? (step : Step) : Option SessionId :=
  match step.call with
  | .initiate chain new => (step.client.initiate chain new).1.toOption
  | _ => none

/-- The session that the step completes, by its reply, with the commitment. -/
def completed? (step : Step) : Option (SessionId × Commitment) :=
  match step.call with
  | .complete chain id caller complete =>
    (step.client.complete chain id caller complete).1.toOption.map fun _ => (id, complete.commitment)
  | _ => none

/-- The validator set that the step makes the active one, by its reply. -/
def installed? (step : Step) : Option ValidatorSet :=
  match step.call with
  | .rotate next => (step.client.rotate next).1.toOption.map fun _ => next
  | _ => none

/-- The sessions that the step completes, cancels or lets expire, by its reply. -/
def ended (step : Step) : List SessionId :=
  match step.call with
  | .complete chain id caller complete =>
    (step.client.complete chain id caller complete).1.toOption.toList.map fun _ => id
  | .cancel id caller => (step.client.cancel id caller).1.toOption.toList.map fun _ => id
  | .expireStale current => (step.client.expireStale current).1
  | _ => []

/-- The step opens the session. -/
def Opens (step : Step) (session : Session) : Prop :=
  ∃ chain new claimed, step.call = .initiate chain new ∧ step.client.checkNew new = .ok claimed ∧
    session = step.client.newSession chain new claimed step.client.sessions.nextId

/-- What a step does to the client, and what its reply tells of it. -/
inductive Effect (step : Step) : Prop
  | opens (session : SessionId → Session)
      (hopens : step.Opens (session step.client.sessions.nextId))
      (hafter : step.after =
        { step.client with sessions := step.client.sessions.insert session })
      (hopened : step.opened? = some step.client.sessions.nextId)
      (hcompleted : step.completed? = none) (hended : step.ended = [])
      (hinstalled : step.installed? = none)
  | completes (session : Session) (commitment : Commitment)
      (hsession : step.client.sessions.session? session.id = some session)
      (hnewer : step.client.latestBlock < commitment.blockNumber)
      (hafter : step.after = step.client.conclude session.id commitment)
      (hopened : step.opened? = none) (hcompleted : step.completed? = some (session.id, commitment))
      (hended : step.ended = [session.id]) (hinstalled : step.installed? = none)
  | expires (ids : List SessionId) (hafter : step.after = step.client.expire ids)
      (hopened : step.opened? = none) (hcompleted : step.completed? = none)
      (hended : ∀ id ∈ step.ended, id ∈ ids ∧ (step.client.sessions.session? id).isSome)
      (hinstalled : step.installed? = none)
  | rotates (next : ValidatorSet) (hafter : step.after = { step.client with validatorSet := next })
      (hopened : step.opened? = none) (hcompleted : step.completed? = none) (hended : step.ended = [])
      (hinstalled : step.installed? = some next)
      (hid : next.id.toNat = step.client.validatorSet.id.toNat + 1)

theorem Opens.id_eq {step : Step} {session : Session} (h : step.Opens session) :
    session.id = step.client.sessions.nextId := by
  rcases h with ⟨chain, new, claimed, -, -, rfl⟩
  rfl

theorem Opens.opened?_eq {step : Step} {session : Session} (h : step.Opens session) :
    step.opened? = some session.id := by
  rcases h with ⟨chain, new, claimed, hcall, hcheck, rfl⟩
  unfold opened?
  rw [hcall]
  exact congrArg (fun reply => reply.1.toOption) (Client.initiate_of_checkNew chain hcheck)

theorem effect (step : Step) : step.Effect := by
  rcases step with ⟨client, call⟩
  cases call with
  | initiate chain new =>
    rcases Client.initiate_cases client chain new with ⟨claimed, hcheck⟩ | ⟨e, heq⟩
    · have heq := Client.initiate_of_checkNew chain hcheck
      have hopened : opened? ⟨client, .initiate chain new⟩ = some client.sessions.nextId :=
        congrArg (fun reply => reply.1.toOption) heq
      exact .opens (client.newSession chain new claimed) ⟨chain, new, claimed, rfl, hcheck, rfl⟩
        (congrArg Prod.snd heq) hopened rfl rfl rfl
    · have hopened : opened? ⟨client, .initiate chain new⟩ = none :=
        congrArg (fun reply => reply.1.toOption) heq
      exact .expires [] (congrArg Prod.snd heq) hopened rfl (fun id hid => nomatch hid) rfl
  | challenge chain id =>
    rcases Client.challenge_cases client chain id with ⟨session, hsession, hclosed⟩ | heq
    · have heq := Client.challenge_of_closed hsession hclosed
      exact .expires [id] (congrArg Prod.snd heq) rfl rfl (fun id hid => nomatch hid) rfl
    · exact .expires [] heq rfl rfl (fun id hid => nomatch hid) rfl
  | complete chain id caller complete =>
    -- A completion that is refused may let its session expire, but it does not say so.
    have hrefused : ∀ e ids, client.complete chain id caller complete = (.error e, client.expire ids) →
        Effect ⟨client, .complete chain id caller complete⟩ := by
      intro e ids heq
      have hcompleted : completed? ⟨client, .complete chain id caller complete⟩ = none :=
        congrArg (fun reply => reply.1.toOption.map fun _ => (id, complete.commitment)) heq
      have hended : ended ⟨client, .complete chain id caller complete⟩ = [] :=
        congrArg (fun reply => reply.1.toOption.toList.map fun _ => id) heq
      refine .expires ids (congrArg Prod.snd heq) rfl hcompleted (fun other hother => ?_) rfl
      rw [hended] at hother
      cases hother
    rcases Client.complete_cases client chain id caller complete with
      ⟨session, seed, payload, hsession, hcompletes⟩ | ⟨session, hsession, rfl, hclosed⟩ |
      ⟨e, heq⟩
    · rcases (SessionStore.mem_of_session? hsession).2 with rfl
      have heq := hcompletes.complete_eq hsession
      have hcompleted : completed? ⟨client, .complete chain session.id caller complete⟩ =
          some (session.id, complete.commitment) :=
        congrArg (fun reply => reply.1.toOption.map fun _ => (session.id, complete.commitment)) heq
      have hended : ended ⟨client, .complete chain session.id caller complete⟩ = [session.id] :=
        congrArg (fun reply => reply.1.toOption.toList.map fun _ => session.id) heq
      exact .completes session complete.commitment hsession hcompletes.accepts.newer
        (congrArg Prod.snd heq) rfl hcompleted hended rfl
    · exact hrefused _ [id] (Client.complete_of_closed hsession hclosed complete)
    · exact hrefused e [] heq
  | cancel id caller =>
    rcases Client.cancel_cases client id caller with ⟨hsession, heq⟩ | ⟨e, heq⟩
    · have hended : ended ⟨client, .cancel id caller⟩ = [id] :=
        congrArg (fun reply => reply.1.toOption.toList.map fun _ => id) heq
      refine .expires [id] (congrArg Prod.snd heq) rfl rfl (fun other hother => ?_) rfl
      rw [hended] at hother
      obtain rfl : other = id := List.mem_singleton.1 hother
      exact ⟨hother, hsession⟩
    · have hended : ended ⟨client, .cancel id caller⟩ = [] :=
        congrArg (fun reply => reply.1.toOption.toList.map fun _ => id) heq
      refine .expires [] (congrArg Prod.snd heq) rfl rfl (fun other hother => ?_) rfl
      rw [hended] at hother
      cases hother
  | expireStale current =>
    refine .expires (client.expireStale current).1 rfl rfl rfl (fun id hid => ?_) rfl
    exact ⟨hid, Client.isSome_session?_of_mem_expireStale hid⟩
  | rotate next =>
    rcases Client.rotate_cases client next with ⟨hid, heq⟩ | ⟨e, heq⟩
    · have hinstalled : installed? ⟨client, .rotate next⟩ = some next :=
        congrArg (fun reply => reply.1.toOption.map fun _ => next) heq
      exact .rotates next (congrArg Prod.snd heq) rfl rfl rfl hinstalled hid
    · have hinstalled : installed? ⟨client, .rotate next⟩ = none :=
        congrArg (fun reply => reply.1.toOption.map fun _ => next) heq
      -- A refused rotation does nothing.
      exact .expires [] (congrArg Prod.snd heq) rfl rfl (fun id hid => nomatch hid) hinstalled

/-! ## What a step keeps -/

variable {step : Step} {session : Session} {id : SessionId}

theorem config_after (step : Step) : step.after.config = step.client.config := by
  cases step.effect with
  | opens _ _ hafter => rw [hafter]
  | completes session _ _ _ hafter => rw [hafter]; rfl
  | expires ids hafter => rw [hafter, Client.expire_eq]
  | rotates _ hafter => rw [hafter]

-- The active set changes in a rotation only, and then to a set with the next id.
theorem validatorSet_after (step : Step) :
    step.installed? = none ∧ step.after.validatorSet = step.client.validatorSet ∨
    ∃ next, step.installed? = some next ∧ step.after.validatorSet = next ∧
      next.id.toNat = step.client.validatorSet.id.toNat + 1 := by
  cases step.effect with
  | opens _ _ hafter _ _ _ hinstalled => rw [hafter]; exact .inl ⟨hinstalled, rfl⟩
  | completes _ _ _ _ hafter _ _ _ hinstalled => rw [hafter]; exact .inl ⟨hinstalled, rfl⟩
  | expires ids hafter _ _ _ hinstalled =>
    rw [hafter, Client.expire_eq]
    exact .inl ⟨hinstalled, rfl⟩
  | rotates next hafter _ _ _ hinstalled hid =>
    rw [hafter]
    exact .inr ⟨next, hinstalled, rfl, hid⟩

-- The latest block grows at each completion and else stays.
theorem latestBlock_le_after (step : Step) : step.client.latestBlock ≤ step.after.latestBlock := by
  cases step.effect with
  | opens _ _ hafter => rw [hafter]; exact UInt64.le_refl _
  | completes session commitment _ hnewer hafter => rw [hafter]; exact UInt64.le_of_lt hnewer
  | expires ids hafter => rw [hafter, Client.expire_eq]; exact UInt64.le_refl _
  | rotates _ hafter => rw [hafter]; exact UInt64.le_refl _

theorem latestBlock_of_completed? {done : SessionId × Commitment} (h : step.completed? = some done) :
    step.after.latestBlock = done.2.blockNumber := by
  cases step.effect with
  | opens _ _ _ _ hcompleted => rw [hcompleted] at h; cases h
  | completes session commitment _ _ hafter _ hcompleted =>
    rw [hcompleted] at h
    cases h
    rw [hafter]
    rfl
  | expires _ _ _ hcompleted => rw [hcompleted] at h; cases h
  | rotates _ _ _ hcompleted => rw [hcompleted] at h; cases h

-- Ids are given out one after the other.
theorem nextId_after (step : Step) :
    step.opened? = none ∧ step.after.sessions.nextId = step.client.sessions.nextId ∨
    step.opened? = some step.client.sessions.nextId ∧
      step.after.sessions.nextId = ⟨step.client.sessions.nextId.value + 1⟩ := by
  cases step.effect with
  | opens _ _ hafter hopened => rw [hafter]; exact .inr ⟨hopened, rfl⟩
  | completes _ _ _ _ hafter hopened =>
    rw [hafter]
    exact .inl ⟨hopened, SessionStore.nextId_finish _ _ _⟩
  | expires _ hafter hopened => rw [hafter]; exact .inl ⟨hopened, Client.nextId_expire _ _⟩
  | rotates _ hafter hopened => rw [hafter]; exact .inl ⟨hopened, rfl⟩

-- A pending session was pending before or is the one that the step opens.
theorem mem_pending_after (h : session ∈ step.after.sessions.pending) :
    session ∈ step.client.sessions.pending ∨ step.Opens session := by
  cases step.effect with
  | opens _ hopens hafter =>
    rw [hafter] at h
    rcases SessionStore.mem_pending_insert.1 h with h | rfl
    · exact .inl h
    · exact .inr hopens
  | completes _ _ _ _ hafter =>
    rw [hafter] at h
    exact .inl (SessionStore.mem_pending_finish.1 h).1
  | expires _ hafter =>
    rw [hafter] at h
    exact .inl (Client.mem_pending_expire.1 h).1
  | rotates _ hafter => rw [hafter] at h; exact .inl h

-- A lookup of a pending session finds what it found before, unless its id is given out just now.
theorem session?_of_after (hopened : step.opened? ≠ some id)
    (h : step.after.sessions.session? id = some session) :
    step.client.sessions.session? id = some session := by
  cases step.effect with
  | opens _ hopens hafter hopened' =>
    rw [hopened', ne_eq, Option.some.injEq] at hopened
    rw [hafter] at h
    dsimp only at h
    rw [SessionStore.session?_insert hopens.id_eq, if_neg hopened, Option.or_none] at h
    exact h
  | completes ended commitment _ _ hafter =>
    rw [hafter] at h
    have hfinish := SessionStore.session?_finish step.client.sessions ended.id id .completed
    by_cases hid : id = ended.id
    · rw [if_pos hid] at hfinish
      exact nomatch hfinish.symm.trans h
    · rw [if_neg hid] at hfinish
      exact hfinish.symm.trans h
  | expires ids hafter =>
    rw [hafter, Client.session?_expire] at h
    by_cases hid : id ∈ ids
    · rw [if_pos hid] at h
      cases h
    · rwa [if_neg hid] at h
  | rotates _ hafter => rw [hafter] at h; exact h

-- An outcome is there to stay.
theorem isSome_outcome?_after (h : (step.client.sessions.outcome? id).isSome) :
    (step.after.sessions.outcome? id).isSome := by
  cases step.effect with
  | opens _ _ hafter => rw [hafter]; exact h
  | completes ended commitment _ _ hafter =>
    have hfinish := SessionStore.outcome?_finish step.client.sessions ended.id id .completed
    rw [hafter]
    show ((step.client.sessions.finish ended.id .completed).outcome? id).isSome
    rw [hfinish]
    split
    · rfl
    · exact h
  | expires ids hafter =>
    rw [hafter, Client.outcome?_expire]
    split
    · rfl
    · exact h
  | rotates _ hafter => rw [hafter]; exact h

-- What a step says to have ended has an outcome.
theorem isSome_outcome?_of_mem_ended (h : id ∈ step.ended) :
    (step.after.sessions.outcome? id).isSome := by
  cases step.effect with
  | opens _ _ _ _ _ hended => rw [hended] at h; cases h
  | completes session commitment hsession _ hafter _ _ hended =>
    rw [hended, List.mem_singleton] at h
    subst h
    have hfinish := SessionStore.outcome?_finish step.client.sessions session.id session.id .completed
    rw [hafter]
    show ((step.client.sessions.finish session.id .completed).outcome? session.id).isSome
    rw [hfinish, if_pos ⟨rfl, by rw [hsession]; rfl⟩]
    rfl
  | expires ids hafter _ _ hended =>
    rw [hafter, Client.outcome?_expire, if_pos (hended id h)]
    rfl
  | rotates _ _ _ _ hended => rw [hended] at h; cases h

-- Every id that is given out stays the id of one session.
theorem perm_ids_after (h : step.client.sessions.ids.Perm step.client.sessions.issued)
    (hnext : step.opened? ≠ none → step.client.sessions.nextId.value.toNat + 1 < 2 ^ 64) :
    step.after.sessions.ids.Perm step.after.sessions.issued := by
  have hnodup := h.nodup_iff.2 (SessionStore.nodup_issued _)
  cases step.effect with
  | opens session hopens hafter hopened =>
    have hlt := hnext (by rw [hopened]; exact Option.some_ne_none _)
    rw [hafter]
    dsimp only
    rw [SessionStore.issued_insert hlt]
    exact (SessionStore.perm_ids_insert hopens.id_eq).trans (h.append_right _)
  | completes session commitment _ _ hafter =>
    rw [hafter]
    have hissued : (step.client.conclude session.id commitment).sessions.issued =
        step.client.sessions.issued := by
      unfold SessionStore.issued
      rw [show (step.client.conclude session.id commitment).sessions.nextId = _ from
        SessionStore.nextId_finish _ _ _]
    rw [hissued]
    exact (SessionStore.perm_ids_finish hnodup session.id .completed).trans h
  | expires ids hafter =>
    rw [hafter]
    have hissued : (step.client.expire ids).sessions.issued = step.client.sessions.issued := by
      unfold SessionStore.issued
      rw [Client.nextId_expire]
    rw [hissued]
    exact (Client.perm_ids_expire hnodup).trans h
  | rotates _ hafter => rw [hafter]; exact h

end Step

end FinalityBridge
