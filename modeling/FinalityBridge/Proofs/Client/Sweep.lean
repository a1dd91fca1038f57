import Mathlib.Data.List.Induction
import Mathlib.Data.List.Perm.Basic
import FinalityBridge.Proofs.Client.Separation

/-!
# Sweeps

A sweep at a block expires just the pending sessions whose seeds are retained no longer, which are those
that a challenge at the same block would let expire. It does not matter in which order sweeps are made:
two of them end as the later one alone. Main statement: `sweeps_exactly`.
-/

namespace FinalityBridge

/-! ## The order of pending sessions -/

theorem Client.ascending_expire {client : Client} (h : client.sessions.Ascending)
    (ids : List SessionId) : (client.expire ids).sessions.Ascending := by
  unfold SessionStore.Ascending
  rw [pending_expire]
  exact h.filter _

theorem Step.ascending_after {step : Step} (hwell : step.client.sessions.WellFormed)
    (h : step.client.sessions.Ascending) : step.after.sessions.Ascending := by
  cases step.effect with
  | opens make hopens hafter =>
    rw [hafter]
    exact h.insert hopens.id_eq hwell.pending_lt
  | completes session commitment _ _ hafter =>
    rw [hafter]
    exact h.finish session.id .completed
  | expires ids hafter =>
    rw [hafter]
    exact Client.ascending_expire h ids
  | rotates _ hafter =>
    rw [hafter]
    exact h

namespace Client

variable {client : Client} {chain : HostChain} {session : Session} {id : SessionId}
  {current : BlockNumber}

theorem ascending_of_new {initial : ValidatorSet} {config : Config} {calls : List Call}
    (hcount : ((new initial config).openings calls).length < 2 ^ 64) :
    ((new initial config).run calls).sessions.Ascending := by
  induction calls using List.reverseRecOn with
  | nil => exact List.Pairwise.nil
  | append_singleton calls call ih =>
    rw [openings_append, List.length_append] at hcount
    have hbefore : ((new initial config).openings calls).length < 2 ^ 64 := by omega
    rw [run_append]
    exact @Step.ascending_after ⟨_, call⟩ (wellFormed_of_new hbefore) (ih hbefore)

/-! ## What a sweep finds -/

theorem mem_expireStale_iff (h : client.sessions.Ascending) :
    id ∈ (client.expireStale current).1 ↔
      ∃ session, client.sessions.session? id = some session ∧
        session.lockBlock.toNat + client.config.seedRetention.toNat < current.toNat := by
  unfold expireStale
  simp only [List.mem_map, List.mem_filter, decide_eq_true_eq, Session.window_eq_closed_iff,
    h.session?_eq_some_iff]
  constructor
  · rintro ⟨session, ⟨hmem, hbeyond⟩, hid⟩
    exact ⟨session, ⟨hmem, hid⟩, hbeyond⟩
  · rintro ⟨session, ⟨hmem, hid⟩, hbeyond⟩
    exact ⟨session, ⟨hmem, hbeyond⟩, hid⟩

theorem ascending_expireStale (h : client.sessions.Ascending) (current : BlockNumber) :
    (client.expireStale current).1.Pairwise (·.value < ·.value) := by
  unfold expireStale
  rw [List.pairwise_map]
  exact h.filter _

theorem nodup_expireStale (h : client.sessions.Ascending) (current : BlockNumber) :
    (client.expireStale current).1.Nodup :=
  SessionId.nodup_of_ascending (ascending_expireStale h current)

/-- The sweep and the look at a single session agree on what is overdue. -/
theorem mem_expireStale_iff_challenge (h : client.sessions.Ascending)
    (hchain : chain.current = current) :
    id ∈ (client.expireStale current).1 ↔
      client.sessions.status? id = some .pending ∧
        (client.challenge chain id).2.sessions.status? id = some .expired := by
  rw [mem_expireStale_iff h, SessionStore.status?_eq_pending_iff]
  constructor
  · rintro ⟨session, hsession, hbeyond⟩
    refine ⟨⟨session, hsession⟩, ?_⟩
    rw [challenge_of_pending hsession, status?_lapse hsession, Session.window_eq_closed_iff, hchain]
    exact hbeyond
  · rintro ⟨⟨session, hsession⟩, hexpired⟩
    rw [challenge_of_pending hsession, status?_lapse hsession, Session.window_eq_closed_iff,
      hchain] at hexpired
    exact ⟨session, hsession, hexpired⟩

/-! ## Two sweeps -/

-- The order in which sessions expire leaves no trace.
theorem expire_perm {ids others : List SessionId} (h : ids.Perm others) (client : Client) :
    client.expire ids = client.expire others := by
  unfold expire
  apply h.foldl_eq'
  intro a _ b _ client
  by_cases hab : a = b
  · rw [hab]
  · exact finish_comm hab .expired .expired client

theorem toNat_max (a b : BlockNumber) : (max a b).toNat = max a.toNat b.toNat := by
  show (if a ≤ b then b else a).toNat = _
  split
  · next hle =>
    have := UInt64.le_iff_toNat_le.1 hle
    omega
  · next hle =>
    have := UInt64.le_iff_toNat_le.not.1 hle
    omega

theorem exists_session?_expireStale_iff {P : Session → Prop} :
    (∃ session, (client.expireStale current).2.sessions.session? id = some session ∧ P session) ↔
      id ∉ (client.expireStale current).1 ∧
        ∃ session, client.sessions.session? id = some session ∧ P session := by
  have hsession := session?_expire client (client.expireStale current).1 id
  rw [show (client.expireStale current).2.sessions.session? id = _ from hsession]
  by_cases hid : id ∈ (client.expireStale current).1
  · simp [hid]
  · simp [hid]

theorem mem_second_expireStale_iff (h : client.sessions.Ascending) (first second : BlockNumber) :
    id ∈ ((client.expireStale first).2.expireStale second).1 ↔
      id ∉ (client.expireStale first).1 ∧ id ∈ (client.expireStale second).1 := by
  have hafter : (client.expireStale first).2.sessions.Ascending := ascending_expire h _
  have hconfig : (client.expireStale first).2.config = client.config :=
    Step.config_after ⟨client, .expireStale first⟩
  rw [@mem_expireStale_iff _ id second hafter, @mem_expireStale_iff _ id second h, hconfig]
  exact exists_session?_expireStale_iff

theorem mem_expireStale_max_iff (h : client.sessions.Ascending) (first second : BlockNumber) :
    id ∈ (client.expireStale (max first second)).1 ↔
      id ∈ (client.expireStale first).1 ∨ id ∈ (client.expireStale second).1 := by
  rw [mem_expireStale_iff h, mem_expireStale_iff h, mem_expireStale_iff h, ← exists_or, toNat_max]
  apply exists_congr
  intro session
  rw [← and_or_left]
  apply and_congr_right
  intro _
  omega

theorem perm_expireStale (h : client.sessions.Ascending) (first second : BlockNumber) :
    ((client.expireStale first).1 ++ ((client.expireStale first).2.expireStale second).1).Perm
      (client.expireStale (max first second)).1 := by
  have hafter : (client.expireStale first).2.sessions.Ascending := ascending_expire h _
  have hnodup : ((client.expireStale first).1 ++
      ((client.expireStale first).2.expireStale second).1).Nodup := by
    apply (nodup_expireStale h first).append (nodup_expireStale hafter second)
    intro id hfirst hsecond
    exact ((mem_second_expireStale_iff h first second).1 hsecond).1 hfirst
  apply (List.perm_ext_iff_of_nodup hnodup (nodup_expireStale h _)).2
  intro id
  rw [List.mem_append, mem_second_expireStale_iff h, mem_expireStale_max_iff h]
  tauto

/-- Two sweeps end as one at the later block. -/
theorem expireStale_expireStale (h : client.sessions.Ascending) (first second : BlockNumber) :
    ((client.expireStale first).2.expireStale second).2 =
      (client.expireStale (max first second)).2 := by
  calc ((client.expireStale first).2.expireStale second).2
      = client.expire ((client.expireStale first).1 ++
          ((client.expireStale first).2.expireStale second).1) := List.foldl_append.symm
    _ = (client.expireStale (max first second)).2 :=
        expire_perm (perm_expireStale h first second) client

/-! ## Sweeps of a client -/

/-- What sweeps do. -/
structure SweepsExactly (client : Client) : Prop where
  -- A sweep finds the pending sessions that are beyond the retention of their seeds, and no others.
  mem_iff : ∀ current id, id ∈ (client.expireStale current).1 ↔
    ∃ session, client.sessions.session? id = some session ∧
      session.lockBlock.toNat + client.config.seedRetention.toNat < current.toNat
  ascending : ∀ current, (client.expireStale current).1.Pairwise (·.value < ·.value)
  -- It expires just these.
  status? : ∀ current id, (client.expireStale current).2.sessions.status? id =
    if id ∈ (client.expireStale current).1 then some .expired else client.sessions.status? id
  outcome? : ∀ current id, (client.expireStale current).2.sessions.outcome? id =
    if id ∈ (client.expireStale current).1 then some .expired else client.sessions.outcome? id
  -- The others stay as they are, and so does all else.
  pending : ∀ current, (client.expireStale current).2.sessions.pending =
    client.sessions.pending.filter fun session => session.id ∉ (client.expireStale current).1
  nextId : ∀ current,
    (client.expireStale current).2.sessions.nextId = client.sessions.nextId
  others : ∀ current, { client with sessions := (client.expireStale current).2.sessions } =
    (client.expireStale current).2
  -- A challenge at the same block would let the same sessions expire.
  challenge_iff : ∀ chain id, id ∈ (client.expireStale chain.current).1 ↔
    client.sessions.status? id = some .pending ∧
      (client.challenge chain id).2.sessions.status? id = some .expired
  -- Two sweeps are one at the later block, which finds what each of them finds.
  twice : ∀ first second, ((client.expireStale first).2.expireStale second).2 =
    (client.expireStale (max first second)).2
  disjoint : ∀ first second, (client.expireStale first).1.Disjoint
    ((client.expireStale first).2.expireStale second).1
  union : ∀ first second id, id ∈ (client.expireStale (max first second)).1 ↔
    id ∈ (client.expireStale first).1 ∨ id ∈ ((client.expireStale first).2.expireStale second).1

theorem SweepsExactly.of_ascending (h : client.sessions.Ascending) : client.SweepsExactly where
  mem_iff _ _ := mem_expireStale_iff h
  ascending := ascending_expireStale h
  status? current id := by
    apply (status?_expire client (client.expireStale current).1 id).trans
    exact if_congr (and_iff_left_of_imp isSome_session?_of_mem_expireStale) rfl rfl
  outcome? current id := by
    apply (outcome?_expire client (client.expireStale current).1 id).trans
    exact if_congr (and_iff_left_of_imp isSome_session?_of_mem_expireStale) rfl rfl
  pending current := pending_expire client (client.expireStale current).1
  nextId current := nextId_expire client (client.expireStale current).1
  others current := by
    show { client with sessions := (client.expire (client.expireStale current).1).sessions } =
      client.expire (client.expireStale current).1
    rw [expire_eq]
  challenge_iff _ _ := mem_expireStale_iff_challenge h rfl
  twice := expireStale_expireStale h
  disjoint first second := by
    intro id hfirst hsecond
    exact ((mem_second_expireStale_iff h first second).1 hsecond).1 hfirst
  union first second id := by
    rw [mem_second_expireStale_iff h, mem_expireStale_max_iff h]
    tauto

/-- Whatever calls were made before, sweeps expire what they should. -/
theorem sweeps_exactly {initial : ValidatorSet} {config : Config} {calls : List Call}
    (hcount : ((new initial config).openings calls).length < 2 ^ 64) :
    ((new initial config).run calls).SweepsExactly :=
  .of_ascending (ascending_of_new hcount)

namespace Sample

-- The session is swept at block 1000, also when block 60 was swept before.
theorem swept :
    ((new validatorSet .standard).openings openAndRotate).length < 2 ^ 64 ∧
      (((new validatorSet .standard).run openAndRotate).expireStale 60).1 = [] ∧
      (((new validatorSet .standard).run openAndRotate).expireStale 1000).1 = [⟨0⟩] ∧
      ((((new validatorSet .standard).run openAndRotate).expireStale 60).2.expireStale 1000).2 =
        (((new validatorSet .standard).run openAndRotate).expireStale 1000).2 ∧
      (((new validatorSet .standard).run openAndRotate).challenge (hostChain 1000)
        ⟨0⟩).2.sessions.status? ⟨0⟩ = some .expired := by
  have hsweeps : ((new validatorSet .standard).run openAndRotate).SweepsExactly :=
    sweeps_exactly length_openings_lt
  have hfound : (((new validatorSet .standard).run openAndRotate).expireStale 60).1 = [] ∧
      (((new validatorSet .standard).run openAndRotate).expireStale 1000).1 = [⟨0⟩] := by
    decide +kernel
  refine ⟨length_openings_lt, hfound.1, hfound.2, hsweeps.twice 60 1000, ?_⟩
  apply And.right
  apply (hsweeps.challenge_iff (hostChain 1000) ⟨0⟩).1
  show ⟨0⟩ ∈ (((new validatorSet .standard).run openAndRotate).expireStale 1000).1
  rw [hfound.2]
  exact List.mem_singleton_self _

end Sample

end Client

end FinalityBridge
