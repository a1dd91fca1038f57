import Mathlib.Algebra.Ring.Nat
import Mathlib.Data.List.Basic
import Mathlib.Data.List.Nodup
import FinalityBridge.Session.Store

/-!
# Laws of the session store

What opening and ending a session do to the lookups, the statuses and the ids. As long as ids do not
run out, every id that has been given out is that of one session (`perm_ids_insert`,
`perm_ids_finish`), so a session that has an outcome is not pending (`WellFormed`), and the pending
sessions stand in the order of their ids (`Ascending`).
-/

namespace FinalityBridge

theorem SessionId.nodup_of_ascending {ids : List SessionId} (h : ids.Pairwise (·.value < ·.value)) :
    ids.Nodup := by
  apply h.imp
  intro a b hlt heq
  rw [heq] at hlt
  exact UInt64.lt_irrefl _ hlt

-- An id that has no outcome yet is new among those that have one.
theorem Outcomes.perm_keys_record {outcomes : Outcomes} {id : SessionId}
    (h : id ∉ outcomes.map (·.1)) (outcome : Outcome) :
    ((outcomes.record id outcome).map (·.1)).Perm (id :: outcomes.map (·.1)) := by
  induction outcomes with
  | nil => exact .refl _
  | cons entry rest ih =>
    rw [List.map_cons, List.mem_cons, not_or] at h
    rw [record]
    by_cases hlt : id.value < entry.1.value
    · rw [if_pos hlt]
      exact .refl _
    · rw [if_neg hlt, if_neg h.1, List.map_cons, List.map_cons]
      exact ((ih h.2).cons entry.1).trans (.swap id entry.1 _)

-- An outcome that is recorded leaves those of the other sessions.
theorem Outcomes.filter_record (id : SessionId) (outcome : Outcome) (outcomes : Outcomes) :
    (outcomes.record id outcome).filter (fun entry => entry.1 ≠ id) =
      outcomes.filter fun entry => entry.1 ≠ id := by
  induction outcomes with
  | nil => simp [record]
  | cons entry rest ih =>
    rw [record]
    split
    · simp
    · split
      · next heq => simp [← heq]
      · rw [List.filter_cons, List.filter_cons, ih]

theorem Outcome.status_injective : Function.Injective Outcome.status := by
  intro a b h
  cases a <;> cases b <;> first | rfl | cases h

namespace SessionStore

variable {store : SessionStore} {id : SessionId} {session : Session}

theorem mem_of_session? (h : store.session? id = some session) :
    session ∈ store.pending ∧ session.id = id := by
  refine ⟨List.mem_of_find?_eq_some h, ?_⟩
  have hid := List.find?_some h
  simpa using hid

theorem ne_of_session?_eq_none (h : store.session? id = none) (hmem : session ∈ store.pending) :
    session.id ≠ id := by
  have hid := List.find?_eq_none.1 h session hmem
  simpa using hid

theorem get_eq_ok_iff : store.get id = .ok session ↔ store.session? id = some session := by
  unfold get
  cases store.session? id with
  | some found => simp
  | none => cases store.outcome? id with
    | none => simp
    | some outcome => cases outcome <;> simp

theorem exists_get_eq_error (h : store.session? id = none) : ∃ e, store.get id = .error e := by
  cases hget : store.get id with
  | error e => exact ⟨e, rfl⟩
  | ok session =>
    rw [get_eq_ok_iff, h] at hget
    cases hget

theorem status?_eq_pending_iff :
    store.status? id = some .pending ↔ ∃ session, store.session? id = some session := by
  unfold status?
  cases store.session? id with
  | some session => simp
  | none =>
    cases store.outcome? id with
    | none => simp
    | some outcome => cases outcome <;> simp [Outcome.status]

/-! ## Opening a session -/

theorem mem_pending_insert {make : SessionId → Session} :
    session ∈ (store.insert make).pending ↔
      session ∈ store.pending ∨ session = make store.nextId := by
  simp [insert]

theorem session?_insert {make : SessionId → Session} (hid : (make store.nextId).id = store.nextId)
    (id : SessionId) :
    (store.insert make).session? id =
      (store.session? id).or (if store.nextId = id then some (make store.nextId) else none) := by
  unfold session? insert
  rw [List.find?_append, List.find?_singleton, hid]
  simp

/-! ## The other sessions -/

/-- The store as it is without a session. -/
def without (store : SessionStore) (id : SessionId) : SessionStore :=
  { store with
    pending := store.pending.filter fun session => session.id ≠ id
    finished := store.finished.filter fun entry => entry.1 ≠ id }

theorem session?_without {other : SessionId} (hne : other ≠ id) :
    (store.without id).session? other = store.session? other := by
  unfold session? without
  dsimp only
  rw [List.find?_filter]
  congr 1
  funext session
  by_cases hid : session.id = other
  · simp [hid, hne]
  · simp [hid]

theorem outcome?_without {other : SessionId} (hne : other ≠ id) :
    (store.without id).outcome? other = store.outcome? other := by
  unfold outcome? without
  dsimp only
  induction store.finished with
  | nil => rfl
  | cons entry rest ih =>
    rw [List.filter_cons, Outcomes.get?]
    by_cases hid : entry.1 = id
    · rw [if_neg (by simpa using hid), ih, if_neg (hid ▸ Ne.symm hne)]
    · rw [if_pos (by simpa using hid), Outcomes.get?, ih]

theorem status?_without {other : SessionId} (hne : other ≠ id) :
    (store.without id).status? other = store.status? other := by
  unfold status?
  rw [session?_without hne, outcome?_without hne]

/-! ## Ending a session -/

theorem finish_of_none (h : store.session? id = none) (outcome : Outcome) :
    store.finish id outcome = store := by
  unfold finish
  rw [h]

theorem finish_of_some (h : store.session? id = some session) (outcome : Outcome) :
    store.finish id outcome =
      { store with
        pending := store.pending.filter fun session => session.id ≠ id
        finished := store.finished.record id outcome } := by
  unfold finish
  rw [h]

theorem without_finish (store : SessionStore) (id : SessionId) (outcome : Outcome) :
    (store.finish id outcome).without id = store.without id := by
  cases h : store.session? id with
  | none => rw [finish_of_none h]
  | some session =>
    rw [finish_of_some h]
    unfold without
    dsimp only
    rw [List.filter_filter, Outcomes.filter_record]
    simp only [Bool.and_self]

theorem nextId_finish (store : SessionStore) (id : SessionId) (outcome : Outcome) :
    (store.finish id outcome).nextId = store.nextId := by
  unfold finish
  cases store.session? id <;> rfl

theorem pending_finish (store : SessionStore) (id : SessionId) (outcome : Outcome) :
    (store.finish id outcome).pending = store.pending.filter fun session => session.id ≠ id := by
  cases h : store.session? id with
  | some session => rw [finish_of_some h]
  | none =>
    rw [finish_of_none h, eq_comm, List.filter_eq_self]
    intro session hmem
    simpa using ne_of_session?_eq_none h hmem

theorem mem_pending_finish {outcome : Outcome} :
    session ∈ (store.finish id outcome).pending ↔ session ∈ store.pending ∧ session.id ≠ id := by
  rw [pending_finish, List.mem_filter, decide_eq_true_eq]

theorem session?_finish (store : SessionStore) (id other : SessionId) (outcome : Outcome) :
    (store.finish id outcome).session? other = if other = id then none else store.session? other := by
  by_cases heq : other = id
  · subst heq
    rw [if_pos rfl, session?, List.find?_eq_none]
    intro session hmem
    simpa using (mem_pending_finish.1 hmem).2
  · rw [if_neg heq, ← session?_without heq, without_finish, session?_without heq]

theorem outcome?_finish (store : SessionStore) (id other : SessionId) (outcome : Outcome) :
    (store.finish id outcome).outcome? other =
      if other = id ∧ (store.session? id).isSome then some outcome else store.outcome? other := by
  by_cases heq : other = id
  · subst heq
    cases h : store.session? other with
    | none => rw [finish_of_none h, if_neg fun hended => nomatch hended.2]
    | some session =>
      rw [finish_of_some h, if_pos ⟨rfl, rfl⟩, outcome?, Outcomes.get?_record, if_pos rfl]
  · rw [if_neg fun h => heq h.1, ← outcome?_without heq, without_finish, outcome?_without heq]

-- The order in which two sessions end leaves no trace.
theorem finish_comm {other : SessionId} (hne : id ≠ other) (a b : Outcome) (store : SessionStore) :
    (store.finish id a).finish other b = (store.finish other b).finish id a := by
  have hid : (store.finish other b).session? id = store.session? id := by
    rw [session?_finish, if_neg hne]
  have hother : (store.finish id a).session? other = store.session? other := by
    rw [session?_finish, if_neg (Ne.symm hne)]
  cases hfirst : store.session? id with
  | none => rw [finish_of_none hfirst, finish_of_none (hid.trans hfirst)]
  | some first =>
    cases hsecond : store.session? other with
    | none => rw [finish_of_none hsecond, finish_of_none (hother.trans hsecond)]
    | some second =>
      rw [finish_of_some (hother.trans hsecond), finish_of_some (hid.trans hfirst),
        finish_of_some hfirst, finish_of_some hsecond]
      dsimp only
      rw [List.filter_comm, Outcomes.record_comm hne]

/-! ## Statuses -/

theorem isSome_status?_iff :
    (store.status? id).isSome ↔ (store.session? id).isSome ∨ (store.outcome? id).isSome := by
  unfold status?
  cases store.session? id with
  | some session => simp
  | none => simp

theorem isSome_outcome?_of_status? {status : SessionStatus} (h : store.status? id = some status)
    (hne : status ≠ .pending) : store.session? id = none ∧ (store.outcome? id).isSome := by
  unfold status? at h
  cases hsession : store.session? id with
  | some session =>
    rw [hsession] at h
    injection h with h
    exact absurd h.symm hne
  | none =>
    rw [hsession] at h
    rcases Option.map_eq_some_iff.1 h with ⟨outcome, houtcome, -⟩
    exact ⟨rfl, by rw [houtcome]; rfl⟩

theorem status?_of_outcome? {outcome : Outcome} (hsession : store.session? id = none)
    (houtcome : store.outcome? id = some outcome) : store.status? id = some outcome.status := by
  unfold status?
  rw [hsession, houtcome]
  rfl

-- What is told of a session follows from its body and its status.
theorem get_congr {a b : SessionStore} (hsession : a.session? id = b.session? id)
    (hstatus : a.status? id = b.status? id) : a.get id = b.get id := by
  cases hb : b.session? id with
  | some session => rw [get_eq_ok_iff.2 (hsession.trans hb), get_eq_ok_iff.2 hb]
  | none =>
    have ha := hsession.trans hb
    unfold status? at hstatus
    rw [ha, hb] at hstatus
    have houtcome := Option.map_injective Outcome.status_injective hstatus
    unfold get
    rw [ha, hb, houtcome]

theorem status?_finish (store : SessionStore) (id other : SessionId) (outcome : Outcome) :
    (store.finish id outcome).status? other =
      if other = id ∧ (store.session? id).isSome then some outcome.status else store.status? other := by
  unfold status?
  rw [session?_finish, outcome?_finish]
  by_cases heq : other = id
  · subst heq
    rw [if_pos rfl]
    cases store.session? other with
    | some session => simp
    | none => simp
  · rw [if_neg heq, if_neg fun h => heq h.1, if_neg fun h => heq h.1]

theorem status?_finish_self (h : store.session? id = some session) (outcome : Outcome) :
    (store.finish id outcome).status? id = some outcome.status := by
  rw [status?_finish, h, if_pos ⟨rfl, rfl⟩]

theorem status?_insert {make : SessionId → Session} (hid : (make store.nextId).id = store.nextId)
    (hnew : store.session? store.nextId = none) (other : SessionId) :
    (store.insert make).status? other =
      if other = store.nextId then some .pending else store.status? other := by
  have houtcome : (store.insert make).outcome? other = store.outcome? other := rfl
  unfold status?
  rw [session?_insert hid, houtcome]
  by_cases heq : other = store.nextId
  · subst heq
    rw [hnew, if_pos rfl, if_pos rfl]
    rfl
  · rw [if_neg heq, if_neg (Ne.symm heq), Option.or_none]

/-! ## Ids -/

/-- The ids of all sessions, the pending ones first. -/
def ids (store : SessionStore) : List SessionId :=
  store.pending.map (·.id) ++ store.finished.map (·.1)

/-- The ids that have been given out. -/
def issued (store : SessionStore) : List SessionId :=
  (List.range store.nextId.value.toNat).map fun k => ⟨UInt64.ofNat k⟩

theorem isSome_session?_iff : (store.session? id).isSome ↔ id ∈ store.pending.map (·.id) := by
  unfold session?
  rw [List.find?_isSome, List.mem_map]
  simp only [decide_eq_true_eq]

theorem isSome_outcome?_iff : (store.outcome? id).isSome ↔ id ∈ store.finished.map (·.1) := by
  unfold outcome?
  induction store.finished with
  | nil => simp [Outcomes.get?]
  | cons entry rest ih =>
    rw [Outcomes.get?, List.map_cons, List.mem_cons]
    by_cases h : entry.1 = id
    · simp [h]
    · rw [if_neg h, ih]
      simp [Ne.symm h]

theorem mem_ids : id ∈ store.ids ↔ (store.session? id).isSome ∨ (store.outcome? id).isSome := by
  rw [ids, List.mem_append, isSome_session?_iff, isSome_outcome?_iff]

theorem mem_issued : id ∈ store.issued ↔ id.value < store.nextId.value := by
  rw [issued, List.mem_map, UInt64.lt_iff_toNat_lt]
  constructor
  · rintro ⟨k, hk, rfl⟩
    have hk := List.mem_range.1 hk
    rw [UInt64.toNat_ofNat_of_lt' (Nat.lt_trans hk store.nextId.value.toNat_lt)]
    exact hk
  · intro h
    refine ⟨id.value.toNat, List.mem_range.2 h, ?_⟩
    rw [UInt64.ofNat_toNat]

theorem nodup_issued (store : SessionStore) : store.issued.Nodup := by
  apply List.Nodup.map_on _ List.nodup_range
  intro a ha b hb heq
  have ha := List.mem_range.1 ha
  have hb := List.mem_range.1 hb
  have hsize := store.nextId.value.toNat_lt
  have hvalue := congrArg (fun id : SessionId => id.value.toNat) heq
  simp only [UInt64.toNat_ofNat'] at hvalue
  omega

-- A session that ends moves from one table to the other.
theorem perm_ids_finish (h : store.ids.Nodup) (id : SessionId) (outcome : Outcome) :
    (store.finish id outcome).ids.Perm store.ids := by
  unfold finish
  cases hsession : store.session? id with
  | none => exact .refl _
  | some session =>
    have hpending : id ∈ store.pending.map (·.id) := by
      rw [← isSome_session?_iff, hsession]
      rfl
    rcases List.nodup_append.1 h with ⟨hnodup, -, hdisjoint⟩
    have hfinished : id ∉ store.finished.map (·.1) :=
      fun hmem => hdisjoint id hpending id hmem rfl
    have hleaves : (store.pending.filter fun session => session.id ≠ id).map (·.id) =
        (store.pending.map (·.id)).erase id := by
      rw [hnodup.erase_eq_filter, List.filter_map]
      congr 2
      funext session
      by_cases heq : session.id = id <;> simp [heq]
    have henters := (Outcomes.perm_keys_record hfinished outcome).append_left
      ((store.pending.map (·.id)).erase id)
    have hback := (List.perm_cons_erase hpending).symm.append_right (store.finished.map (·.1))
    show (List.map _ (store.pending.filter _) ++ List.map _ (store.finished.record id outcome)).Perm _
    rw [hleaves]
    exact henters.trans (List.perm_middle.trans hback)

theorem perm_ids_insert {make : SessionId → Session}
    (hid : (make store.nextId).id = store.nextId) :
    (store.insert make).ids.Perm (store.ids ++ [store.nextId]) := by
  unfold ids insert
  rw [List.map_append, List.map_singleton, hid, List.append_assoc, List.append_assoc]
  exact List.perm_append_comm.append_left _

theorem issued_insert {make : SessionId → Session}
    (hnext : store.nextId.value.toNat + 1 < 2 ^ 64) :
    (store.insert make).issued = store.issued ++ [store.nextId] := by
  have hvalue : (store.nextId.value + 1).toNat = store.nextId.value.toNat + 1 := by
    rw [UInt64.toNat_add]
    simp only [UInt64.toNat_one]
    omega
  unfold issued insert
  rw [hvalue, List.range_succ, List.map_append, List.map_singleton, UInt64.ofNat_toNat]

/-! ## Order -/

/-- The pending sessions stand in ascending order of id. -/
def Ascending (store : SessionStore) : Prop :=
  store.pending.Pairwise fun a b => a.id.value < b.id.value

theorem Ascending.finish (h : store.Ascending) (id : SessionId) (outcome : Outcome) :
    (store.finish id outcome).Ascending := by
  unfold Ascending
  rw [pending_finish]
  exact h.filter _

theorem Ascending.insert {make : SessionId → Session} (h : store.Ascending)
    (hid : (make store.nextId).id = store.nextId)
    (hlt : ∀ session ∈ store.pending, session.id.value < store.nextId.value) :
    (store.insert make).Ascending := by
  unfold Ascending SessionStore.insert
  rw [List.pairwise_append]
  refine ⟨h, List.pairwise_singleton _ _, fun session hmem last hlast => ?_⟩
  rw [List.mem_singleton.1 hlast, hid]
  exact hlt session hmem

-- In ascending order no two pending sessions have the same id.
theorem Ascending.session?_eq_some_iff (h : store.Ascending) :
    store.session? id = some session ↔ session ∈ store.pending ∧ session.id = id := by
  refine ⟨mem_of_session?, ?_⟩
  rintro ⟨hmem, rfl⟩
  obtain ⟨found, hfound⟩ := Option.isSome_iff_exists.1
    (isSome_session?_iff.2 (List.mem_map_of_mem hmem))
  obtain ⟨hmem', hid⟩ := mem_of_session? hfound
  have hnodup : (store.pending.map (·.id)).Nodup :=
    SessionId.nodup_of_ascending (List.pairwise_map.2 h)
  rw [hfound, List.inj_on_of_nodup_map hnodup hmem' hmem hid]

/-! ## Well-formed stores -/

/-- No session has an id that is yet to be given out, and none that has ended is pending. -/
structure WellFormed (store : SessionStore) : Prop where
  pending_lt : ∀ session ∈ store.pending, session.id.value < store.nextId.value
  outcome_lt : ∀ id outcome, store.outcome? id = some outcome → id.value < store.nextId.value
  outcome_of_pending : ∀ session ∈ store.pending, store.outcome? session.id = none

-- If every id that has been given out is that of one session, the store is well-formed.
theorem wellFormed_of_perm (h : store.ids.Perm store.issued) : store.WellFormed where
  pending_lt session hmem := by
    rw [← mem_issued, ← h.mem_iff, ids]
    exact List.mem_append_left _ (List.mem_map_of_mem hmem)
  outcome_lt id outcome houtcome := by
    rw [← mem_issued, ← h.mem_iff, mem_ids, houtcome]
    exact .inr rfl
  outcome_of_pending session hmem := by
    have hnodup := h.nodup_iff.2 store.nodup_issued
    rw [← Option.not_isSome_iff_eq_none, isSome_outcome?_iff]
    intro hended
    exact (List.nodup_append.1 hnodup).2.2 _ (List.mem_map_of_mem hmem) _ hended rfl

theorem WellFormed.session?_nextId (h : store.WellFormed) : store.session? store.nextId = none := by
  cases hsession : store.session? store.nextId with
  | none => rfl
  | some session =>
    rcases mem_of_session? hsession with ⟨hmem, hid⟩
    have hlt := h.pending_lt session hmem
    rw [hid] at hlt
    exact absurd hlt (UInt64.lt_irrefl _)

theorem WellFormed.session?_of_outcome? {outcome : Outcome} (h : store.WellFormed)
    (houtcome : store.outcome? id = some outcome) : store.session? id = none := by
  cases hsession : store.session? id with
  | none => rfl
  | some session =>
    rcases mem_of_session? hsession with ⟨hmem, rfl⟩
    rw [h.outcome_of_pending session hmem] at houtcome
    cases houtcome

end SessionStore

end FinalityBridge
