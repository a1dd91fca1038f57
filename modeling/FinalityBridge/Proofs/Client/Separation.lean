import FinalityBridge.Proofs.Client.History

/-!
# Sessions do not interfere

A challenge, a completion or a cancellation of a session depends on that session, on the config and on
what was verified last, and on nothing else; nor does it change anything else. So it makes no difference
whether the active validator set is replaced before it or after, or another session is challenged or
cancelled. Main statement: `OnSession.separate`.
-/

namespace FinalityBridge.Client

/-- A call with its arguments: from a client to the reply and the client after it. -/
abbrev Operation (α : Type) := Client → Except Error α × Client

variable {a b client : Client} {chain : HostChain} {session : Session} {id other : SessionId}

/-! ## Clients that are alike -/

/-- Two clients of one config have the same entry for a session: the same body while it is pending, the
same status once it has ended, or none. -/
structure SameEntry (id : SessionId) (a b : Client) : Prop where
  config : a.config = b.config
  session? : a.sessions.session? id = b.sessions.session? id
  status? : a.sessions.status? id = b.sessions.status? id

/-- They have also verified the same commitment last. -/
structure SameSession (id : SessionId) (a b : Client) : Prop extends SameEntry id a b where
  latestBlock : a.latestBlock = b.latestBlock
  latestRoot : a.latestRoot = b.latestRoot

/-- Nothing changes but the entry for a session and what was verified last. -/
structure ChangesOnly (id : SessionId) (before after : Client) : Prop where
  validatorSet : after.validatorSet = before.validatorSet
  config : after.config = before.config
  others : after.sessions.without id = before.sessions.without id

theorem ChangesOnly.sameEntry (h : ChangesOnly id a b) (hne : other ≠ id) : SameEntry other a b where
  config := h.config.symm
  session? := by
    rw [← SessionStore.session?_without hne, ← h.others, SessionStore.session?_without hne]
  status? := by
    rw [← SessionStore.status?_without hne, ← h.others, SessionStore.status?_without hne]

theorem SameEntry.finish (h : SameEntry id a b) (outcome : Outcome) :
    SameEntry id (a.finish id outcome) (b.finish id outcome) where
  config := h.config
  session? := by
    unfold Client.finish
    dsimp only
    rw [SessionStore.session?_finish, SessionStore.session?_finish, if_pos rfl, if_pos rfl]
  status? := by
    unfold Client.finish
    dsimp only
    rw [SessionStore.status?_finish, SessionStore.status?_finish, h.session?, h.status?]

theorem finish_comm (hne : id ≠ other) (x y : Outcome) (client : Client) :
    (client.finish id x).finish other y = (client.finish other y).finish id x := by
  unfold finish
  dsimp only
  rw [SessionStore.finish_comm hne]

theorem conclude_finish (hne : id ≠ other) (commitment : Commitment) (x : Outcome)
    (client : Client) :
    (client.conclude id commitment).finish other x =
      (client.finish other x).conclude id commitment := by
  unfold conclude finish
  dsimp only
  rw [SessionStore.finish_comm hne]

/-! ## What becomes of a session -/

/-- What becomes of a session. -/
inductive Ending where
  | stays
  | expires
  | completes (commitment : Commitment)

/-- The session does not end with a result, at least not yet. -/
inductive Ending.Fruitless : Ending → Prop
  | stays : Fruitless .stays
  | expires : Fruitless .expires

def settle (client : Client) (id : SessionId) : Ending → Client
  | .stays => client
  | .expires => client.finish id .expired
  | .completes commitment => client.conclude id commitment

theorem changesOnly_settle (client : Client) (id : SessionId) (ending : Ending) :
    ChangesOnly id client (client.settle id ending) := by
  cases ending with
  | stays => exact ⟨rfl, rfl, rfl⟩
  | expires => exact ⟨rfl, rfl, SessionStore.without_finish client.sessions id .expired⟩
  | completes _ => exact ⟨rfl, rfl, SessionStore.without_finish client.sessions id .completed⟩

theorem SameSession.settle (h : SameSession id a b) (ending : Ending) :
    SameSession id (a.settle id ending) (b.settle id ending) := by
  cases ending with
  | stays => exact h
  | expires => exact ⟨h.finish .expired, h.latestBlock, h.latestRoot⟩
  | completes _ =>
    have hfinish := h.finish .completed
    exact ⟨⟨hfinish.config, hfinish.session?, hfinish.status?⟩, rfl, rfl⟩

-- A session is as before when another one ends without a result.
theorem sameSession_settle (hne : id ≠ other) (client : Client) {ending : Ending}
    (h : ending.Fruitless) : SameSession id client (client.settle other ending) := by
  have hentry := (changesOnly_settle client other ending).sameEntry hne
  cases h with
  | stays => exact ⟨hentry, rfl, rfl⟩
  | expires => exact ⟨hentry, rfl, rfl⟩

-- The other one can do so before or after whatever becomes of the first.
theorem settle_comm (hne : id ≠ other) (client : Client) (ending : Ending) {ending' : Ending}
    (h : ending'.Fruitless) :
    (client.settle id ending).settle other ending' =
      (client.settle other ending').settle id ending := by
  cases h with
  | stays => rfl
  | expires =>
    cases ending with
    | stays => rfl
    | expires => exact finish_comm hne .expired .expired client
    | completes commitment => exact conclude_finish hne commitment .expired client

/-! ## Operations on a session -/

theorem fst_seed_congr (h : a.config = b.config) (chain : HostChain) (session : Session) :
    (a.seed chain session).1 = (b.seed chain session).1 := by
  unfold Client.seed
  rw [h]
  cases session.window chain.current b.config.seedRetention with
  | locked => rfl
  | closed => rfl
  | opened => cases chain.hash? session.lockBlock <;> rfl

theorem SameEntry.get_eq (h : SameEntry id a b) : a.sessions.get id = b.sessions.get id :=
  SessionStore.get_congr h.session? h.status?

theorem SameEntry.exists_lapse (h : SameEntry id a b)
    (hsession : b.sessions.session? id = some session) (chain : HostChain) :
    ∃ ending : Ending, ending.Fruitless ∧ a.lapse chain session = a.settle id ending ∧
      b.lapse chain session = b.settle id ending := by
  by_cases hclosed : session.window chain.current b.config.seedRetention = .closed
  · exact ⟨.expires, .expires, lapse_of_closed (h.session?.trans hsession) (by rwa [h.config]),
      lapse_of_closed hsession hclosed⟩
  · exact ⟨.stays, .stays, lapse_of_not_closed (by rwa [h.config]), lapse_of_not_closed hclosed⟩

theorem SameEntry.challenge (h : SameEntry id a b) (chain : HostChain) :
    ∃ reply, ∃ ending : Ending, ending.Fruitless ∧
      a.challenge chain id = (reply, a.settle id ending) ∧
      b.challenge chain id = (reply, b.settle id ending) := by
  cases hsession : b.sessions.session? id with
  | none =>
    rcases SessionStore.exists_get_eq_error hsession with ⟨e, hget⟩
    unfold Client.challenge
    rw [h.get_eq, hget]
    cases e <;> exact ⟨_, .stays, .stays, rfl, rfl⟩
  | some session =>
    rcases h.exists_lapse hsession chain with ⟨ending, hending, ha, hb⟩
    rw [challenge_of_pending (h.session?.trans hsession), challenge_of_pending hsession,
      fst_seed_congr h.config, ha, hb]
    exact ⟨_, ending, hending, rfl, rfl⟩

theorem SameEntry.cancel (h : SameEntry id a b) (caller : Address) :
    ∃ reply, ∃ ending : Ending, ending.Fruitless ∧
      a.cancel id caller = (reply, a.settle id ending) ∧
      b.cancel id caller = (reply, b.settle id ending) := by
  unfold Client.cancel
  rw [h.get_eq]
  cases b.sessions.get id with
  | error e => exact ⟨_, .stays, .stays, rfl, rfl⟩
  | ok session =>
    dsimp only
    by_cases hcaller : caller ≠ session.submitter
    · rw [if_pos hcaller, if_pos hcaller]
      exact ⟨_, .stays, .stays, rfl, rfl⟩
    · rw [if_neg hcaller, if_neg hcaller]
      exact ⟨_, .expires, .expires, rfl, rfl⟩

theorem SameSession.checkComplete_eq (h : SameSession id a b) (session : Session) (seed : Hash)
    (complete : CompleteCommitment) :
    a.checkComplete session seed complete = b.checkComplete session seed complete := by
  unfold checkComplete
  rw [h.latestBlock]

theorem SameSession.complete (h : SameSession id a b) (chain : HostChain) (caller : Address)
    (complete : CompleteCommitment) :
    ∃ reply ending, a.complete chain id caller complete = (reply, a.settle id ending) ∧
      b.complete chain id caller complete = (reply, b.settle id ending) := by
  cases hsession : b.sessions.session? id with
  | none =>
    rcases SessionStore.exists_get_eq_error hsession with ⟨e, hget⟩
    unfold Client.complete
    rw [h.get_eq, hget]
    exact ⟨_, .stays, rfl, rfl⟩
  | some session =>
    have hsession' := h.session?.trans hsession
    by_cases hcaller : caller = session.submitter
    · subst hcaller
      rcases h.exists_lapse hsession chain with ⟨ending, -, ha, hb⟩
      rw [complete_of_submitter hsession', complete_of_submitter hsession, fst_seed_congr h.config,
        h.config, ha, hb]
      cases (b.seed chain session).1 with
      | error e => exact ⟨_, ending, rfl, rfl⟩
      | ok seed =>
        dsimp only
        rw [h.checkComplete_eq]
        cases b.checkComplete session seed complete with
        | error e => exact ⟨_, .stays, rfl, rfl⟩
        | ok payload => exact ⟨_, .completes complete.commitment, rfl, rfl⟩
    · rw [complete_of_other hsession' hcaller, complete_of_other hsession hcaller]
      exact ⟨_, .stays, rfl, rfl⟩

/-- The operations on a session. -/
inductive OnSession (id : SessionId) : {α : Type} → Operation α → Prop
  | challenge (chain : HostChain) : OnSession id fun client => client.challenge chain id
  | complete (chain : HostChain) (caller : Address) (complete : CompleteCommitment) :
    OnSession id fun client => client.complete chain id caller complete
  | cancel (caller : Address) : OnSession id fun client => client.cancel id caller

-- The reply, and what becomes of the session, are the same for clients that are alike.
theorem OnSession.settles {α : Type} {op : Operation α} (hop : OnSession id op)
    (h : SameSession id a b) :
    ∃ reply ending, op a = (reply, a.settle id ending) ∧ op b = (reply, b.settle id ending) := by
  cases hop with
  | challenge chain =>
    rcases h.challenge chain with ⟨reply, ending, -, ha, hb⟩
    exact ⟨reply, ending, ha, hb⟩
  | complete chain caller complete => exact h.complete chain caller complete
  | cancel caller =>
    rcases h.cancel caller with ⟨reply, ending, -, ha, hb⟩
    exact ⟨reply, ending, ha, hb⟩

/-! ## Operations elsewhere -/

/-- Operations that are not on a session: rotations, and challenges and cancellations of others. -/
inductive Elsewhere (id : SessionId) : {α : Type} → Operation α → Prop
  | rotate (next : ValidatorSet) : Elsewhere id fun client => client.rotate next
  | challenge (chain : HostChain) (other : SessionId) (hne : id ≠ other) :
    Elsewhere id fun client => client.challenge chain other
  | cancel (other : SessionId) (hne : id ≠ other) (caller : Address) :
    Elsewhere id fun client => client.cancel other caller

/-- The operation leaves a session as it is and is the same after whatever becomes of it. -/
structure Passes {α : Type} (id : SessionId) (op : Operation α) : Prop where
  sameSession : ∀ client, SameSession id client (op client).2
  settle : ∀ client ending,
    op (client.settle id ending) = ((op client).1, (op client).2.settle id ending)

theorem passes_rotate (id : SessionId) (next : ValidatorSet) :
    Passes id fun client => client.rotate next where
  sameSession client := by
    unfold rotate
    cases client.validatorSet.rotate next <;> exact ⟨⟨rfl, rfl, rfl⟩, rfl, rfl⟩
  settle client ending := by
    have hset := (changesOnly_settle client id ending).validatorSet
    unfold rotate
    rw [hset]
    cases client.validatorSet.rotate next with
    | error e => rfl
    | ok set => cases ending <;> rfl

-- An operation that at most lets another session expire passes.
theorem passes_of_fruitless {α : Type} {op : Operation α} (hne : id ≠ other)
    (h : ∀ a b, SameEntry other a b → ∃ reply, ∃ ending : Ending, ending.Fruitless ∧
      op a = (reply, a.settle other ending) ∧ op b = (reply, b.settle other ending)) :
    Passes id op where
  sameSession client := by
    rcases h client client ⟨rfl, rfl, rfl⟩ with ⟨reply, ending, hending, heq, -⟩
    rw [heq]
    exact sameSession_settle hne client hending
  settle client ending := by
    have hentry := (changesOnly_settle client id ending).sameEntry (Ne.symm hne)
    rcases h client _ hentry with ⟨reply, ending', hending, heq, hsettled⟩
    rw [heq, hsettled, settle_comm hne client ending hending]

theorem Elsewhere.passes {α : Type} {op : Operation α} (h : Elsewhere id op) : Passes id op := by
  cases h with
  | rotate next => exact passes_rotate id next
  | challenge chain other hne => exact passes_of_fruitless hne fun a b h => h.challenge chain
  | cancel other hne caller => exact passes_of_fruitless hne fun a b h => h.cancel caller

/-! ## Separation -/

/-- The order of two operations makes no difference, neither to a reply nor to the client. -/
structure Commutes {α β : Type} (first : Operation α) (second : Operation β) : Prop where
  reply_first : ∀ client, (first (second client).2).1 = (first client).1
  reply_second : ∀ client, (second (first client).2).1 = (second client).1
  after : ∀ client, (second (first client).2).2 = (first (second client).2).2

theorem OnSession.commutes {α β : Type} {op : Operation α} {moved : Operation β}
    (hop : OnSession id op) (hmoved : Passes id moved) : Commutes op moved := by
  refine ⟨fun client => ?_, fun client => ?_, fun client => ?_⟩
  all_goals
    rcases hop.settles (hmoved.sameSession client) with ⟨reply, ending, hfirst, hsecond⟩
    have hsettle := hmoved.settle client ending
  · rw [hfirst, hsecond]
  · rw [hfirst, hsettle]
  · rw [hfirst, hsecond, hsettle]

/-- In two clients that have the same entry for a session and have verified the same last, an operation
on the session gives the same reply and leaves the same entry, and it changes nothing else in either. So
it commutes with rotations, and with challenges and cancellations of other sessions. -/
theorem OnSession.separate {α : Type} {op : Operation α} (hop : OnSession id op) :
    (∀ a b, SameSession id a b → (op a).1 = (op b).1 ∧ SameSession id (op a).2 (op b).2 ∧
      ChangesOnly id a (op a).2 ∧ ChangesOnly id b (op b).2) ∧
    ∀ (β : Type) (moved : Operation β), Elsewhere id moved → Commutes op moved := by
  refine ⟨fun a b h => ?_, fun β moved hmoved => hop.commutes hmoved.passes⟩
  rcases hop.settles h with ⟨reply, ending, ha, hb⟩
  rw [ha, hb]
  exact ⟨rfl, h.settle ending, changesOnly_settle a id ending, changesOnly_settle b id ending⟩

namespace Sample

theorem run_openAndRotate (client : Client) :
    client.run openAndRotate =
      ((client.after (.initiate (hostChain 10) opening)).rotate nextSet).2 :=
  rfl

-- The session of the small run is completed just as well if the set has not changed yet.
theorem completes_before_rotation :
    OnSession ⟨0⟩ (fun client => client.complete (hostChain 60) ⟨0⟩ .zero submission) ∧
      (((new validatorSet .standard).after (.initiate (hostChain 10) opening)).complete (hostChain 60)
        ⟨0⟩ .zero submission).1 = .ok payload ∧
      Commutes (fun client => client.complete (hostChain 60) ⟨0⟩ .zero submission)
        (fun client => client.rotate nextSet) := by
  have hop : OnSession ⟨0⟩ fun client => client.complete (hostChain 60) ⟨0⟩ .zero submission :=
    .complete (hostChain 60) .zero submission
  rcases hop.separate with ⟨hsame, hcommutes⟩
  have hrotate : ∀ client : Client, ((client.rotate nextSet).2.complete (hostChain 60) ⟨0⟩ .zero
      submission).1 = .ok payload →
      (client.complete (hostChain 60) ⟨0⟩ .zero submission).1 = .ok payload := by
    intro client hok
    have hreply := (hsame client _ ((passes_rotate ⟨0⟩ nextSet).sameSession client)).1
    exact hreply.trans hok
  refine ⟨hop, hrotate _ ?_, hcommutes Unit _ (.rotate nextSet)⟩
  rw [← run_openAndRotate]
  exact complete_eq_ok

end Sample

end FinalityBridge.Client
