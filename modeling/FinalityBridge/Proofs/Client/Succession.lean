import FinalityBridge.Proofs.Client.Signers

/-!
# The succession of validator sets

A client rotates only to a set with the next id, so the sets of a run are numbered one after the
other. Main statement: if every set that is rotated to was read from a leaf that a completion showed,
then an earlier set vouches for it. More than a third of the members of the earlier set attest to a
commitment under which that leaf is included (`validatorSets_succeed`).
-/

namespace FinalityBridge

/-! ## Parts of a run -/

-- Where the `k`-th value that a list yields comes from.
theorem exists_append_of_getElem?_filterMap {α β : Type} {f : α → Option β} {l : List α} {k : Nat}
    {b : β} (h : (l.filterMap f)[k]? = some b) :
    ∃ past a later, l = past ++ a :: later ∧ f a = some b ∧ (past.filterMap f).length = k := by
  induction l generalizing k with
  | nil => cases h
  | cons a l ih =>
    cases ha : f a with
    | none =>
      rw [List.filterMap_cons_none ha] at h
      rcases ih h with ⟨past, a', later, rfl, hb, hlen⟩
      exact ⟨a :: past, a', later, rfl, hb, by rw [List.filterMap_cons_none ha, hlen]⟩
    | some first =>
      rw [List.filterMap_cons_some ha] at h
      cases k with
      | zero => exact ⟨[], a, l, rfl, ha.trans h, rfl⟩
      | succ k =>
        rcases ih h with ⟨past, a', later, rfl, hb, hlen⟩
        refine ⟨a :: past, a', later, rfl, hb, ?_⟩
        rw [List.filterMap_cons_some ha, List.length_cons, hlen]

namespace Client

variable {client : Client} {calls : List Call} {step : Step} {set next : ValidatorSet}

/-! ## The sets of a run -/

/-- The validator sets that the calls of a run make the active one, in order. -/
def installed (client : Client) (calls : List Call) : List ValidatorSet :=
  (client.history calls).filterMap Step.installed?

/-- The validator sets of a run, from the initial one on. -/
def validatorSets (client : Client) (calls : List Call) : List ValidatorSet :=
  client.validatorSet :: client.installed calls

theorem installed_append (client : Client) (calls more : List Call) :
    client.installed (calls ++ more) =
      client.installed calls ++ (client.run calls).installed more := by
  rw [installed, history_append, List.filterMap_append]
  rfl

-- A call adds no set to those of the calls after it, or one whose id the next one follows.
theorem validatorSets_cons (client : Client) (call : Call) (calls : List Call) :
    client.validatorSets (call :: calls) = (client.after call).validatorSets calls ∧
      (client.after call).validatorSet = client.validatorSet ∨
    client.validatorSets (call :: calls) =
        client.validatorSet :: (client.after call).validatorSets calls ∧
      (client.after call).validatorSet.id.toNat = client.validatorSet.id.toNat + 1 := by
  have hcons : client.installed (call :: calls) =
      (Step.installed? ⟨client, call⟩).toList ++ (client.after call).installed calls := by
    rw [installed, history, List.filterMap_cons]
    cases Step.installed? ⟨client, call⟩ <;> rfl
  unfold validatorSets
  rw [hcons]
  rcases validatorSet_after client call with ⟨hinstalled, hset⟩ | ⟨next, hinstalled, hset, hid⟩
  · rw [hinstalled, hset]
    exact .inl ⟨rfl, rfl⟩
  · rw [hinstalled, hset]
    exact .inr ⟨rfl, hid⟩

-- The active set is the last one.
theorem getLast?_validatorSets (client : Client) (calls : List Call) :
    (client.validatorSets calls).getLast? = some (client.run calls).validatorSet := by
  induction calls generalizing client with
  | nil => rfl
  | cons call calls ih =>
    have hlast := ih (client.after call)
    rcases validatorSets_cons client call calls with ⟨hsets, -⟩ | ⟨hsets, -⟩
    · rw [hsets]
      exact hlast
    · rw [hsets, validatorSets, List.getLast?_cons_cons]
      exact hlast

-- The sets are numbered from that of the initial one on.
theorem id_of_validatorSets {j : Nat} (h : (client.validatorSets calls)[j]? = some set) :
    set.id.toNat = client.validatorSet.id.toNat + j := by
  induction calls generalizing client j with
  | nil =>
    cases j with
    | zero =>
      cases h
      rfl
    | succ j => cases h
  | cons call calls ih =>
    rcases validatorSets_cons client call calls with ⟨hsets, hset⟩ | ⟨hsets, hid⟩
    · rw [hsets] at h
      rw [← hset]
      exact ih h
    · rw [hsets] at h
      cases j with
      | zero =>
        cases h
        rfl
      | succ j =>
        have hlater := ih h
        omega

-- The set that is active in the course of a run is one of its sets, and so many have been installed
-- before.
theorem getElem?_validatorSets_append (client : Client) (calls more : List Call) :
    (client.validatorSets (calls ++ more))[(client.installed calls).length]? =
      some (client.run calls).validatorSet := by
  have hlast := getLast?_validatorSets client calls
  have hsets : client.validatorSets (calls ++ more) =
      client.validatorSets calls ++ (client.run calls).installed more := by
    unfold validatorSets
    rw [installed_append, List.cons_append]
  rw [List.getLast?_eq_getElem?] at hlast
  rw [hsets, List.getElem?_append_left (Nat.lt_succ_self _)]
  exact hlast

end Client

/-! ## What a completion shows -/

/-- More than a third of the members of a set attest to a digest, each at a position of its own. -/
structure ValidatorSet.Attests (set : ValidatorSet) (digest : Hash)
    (attestations : List (Signature × MembershipProof)) : Prop where
  one_le_len : 1 ≤ set.len.toNat
  nodup : (attestations.map (·.2.position)).Nodup
  third_lt : (set.len.toNat - 1) / 3 < attestations.length
  checked : ∀ a ∈ attestations, set.checkAttestation digest a.1 a.2 = .ok ()

namespace Step

/-- What the step shows to be finalized, by its reply. -/
def shown? (step : Step) : Option VerifiedPayload :=
  match step.call with
  | .complete chain id caller complete =>
    (step.client.complete chain id caller complete).1.toOption
  | _ => none

/-- The step completes a session of `set`. The members of `set` attest to the commitment, and under
the commitment there is a leaf that names `next`. -/
def HandsOver (step : Step) (set next : ValidatorSet) : Prop :=
  ∃ chain id caller complete payload session,
    step.call = .complete chain id caller complete ∧
    (step.client.complete chain id caller complete).1 = .ok payload ∧
    step.client.sessions.session? id = some session ∧ session.validatorSet = set ∧
    complete.commitment.validatorSetId = set.id ∧
    set.Attests complete.commitment.digest (complete.signatures.zip complete.proofs) ∧
    complete.leafProof.verify Keccak.digest (Leaf.digest payload.leaf.encode)
      complete.commitment.payload = true ∧
    payload.leaf.nextAuthoritySet.root = next.root ∧
    payload.leaf.nextAuthoritySet.len = next.len ∧ payload.leaf.nextAuthoritySet.id = next.id

-- The set with the next id is installed.
theorem installed?_rotate {client : Client} {next : ValidatorSet}
    (h : next.id.toNat = client.validatorSet.id.toNat + 1) :
    installed? ⟨client, .rotate next⟩ = some next := by
  simp only [installed?, Client.rotate, ValidatorSet.rotate, h, if_true]
  rfl

theorem call_of_installed? {step : Step} {next : ValidatorSet} (h : step.installed? = some next) :
    step.call = .rotate next := by
  rcases step with ⟨client, call⟩
  cases call with
  | rotate set =>
    rcases Option.map_eq_some_iff.1 h with ⟨_, -, rfl⟩
    rfl
  | _ => cases h

theorem shown?_eq_some {step : Step} {payload : VerifiedPayload} (h : step.shown? = some payload) :
    ∃ chain id caller complete, step.call = .complete chain id caller complete ∧
      (step.client.complete chain id caller complete).1 = .ok payload := by
  rcases step with ⟨client, call⟩
  cases call with
  | complete chain id caller complete =>
    have hreply : (client.complete chain id caller complete).1.toOption = some payload := h
    exact ⟨chain, id, caller, complete, rfl, eq_ok_of_toOption_eq_some hreply⟩
  | _ => cases h

end Step

namespace Client

variable {initial : ValidatorSet} {config : Config} {calls : List Call} {step : Step}
  {session : Session} {seed : Hash} {complete : CompleteCommitment} {payload : VerifiedPayload}

-- Whoever is challenged for a claim with a quorum attests to the commitment.
theorem Accepts.attests {client : Client} (h : client.Accepts session seed complete payload)
    (hlen : session.claimed.len = session.validatorSet.len)
    (hquorum : quorum session.validatorSet.len ≤ session.claimed.count) :
    session.validatorSet.Attests complete.commitment.digest
      (complete.signatures.zip complete.proofs) := by
  rw [← hlen] at hquorum
  have hthird := Bitfield.third_lt_length_ones_challenge seed hquorum
  have hpos := Bitfield.one_le_len_of_quorum hquorum
  have hlength : complete.signatures.length = complete.proofs.length :=
    h.length_signatures.trans h.length_proofs.symm
  have hpositions : (complete.signatures.zip complete.proofs).map (·.2.position) =
      (challengeOf seed session).ones := by
    have hproofs := List.map_snd_zip (Nat.le_of_eq hlength.symm)
    rw [← h.positions, ← congrArg (List.map (·.position)) hproofs, List.map_map]
    rfl
  refine ⟨by rwa [hlen] at hpos, ?_, ?_, h.attested⟩
  · rw [hpositions]
    exact Bitfield.nodup_ones _
  · rw [← List.length_map (·.2.position), hpositions, ← hlen]
    rwa [hlen] at hthird ⊢

/-- A run rotates only to sets that a leaf names which was shown before. -/
def FollowsLeaves (client : Client) (calls : List Call) : Prop :=
  ∀ past step later next, client.history calls = past ++ step :: later →
    step.call = .rotate next → ∃ completion ∈ past, ∃ payload, completion.shown? = some payload ∧
      next = payload.leaf.nextAuthoritySet.toValidatorSet

-- A completion hands over from the set that was active when its session was opened.
theorem exists_handsOver (hstep : step ∈ (new initial config).history calls)
    (hshown : step.shown? = some payload) :
    ∃ before after, calls = before ++ after ∧
      step.HandsOver ((new initial config).run before).validatorSet
        payload.leaf.nextAuthoritySet.toValidatorSet := by
  rcases exists_calls_of_mem_history hstep with ⟨before, call, after, rfl, rfl⟩
  rcases Step.shown?_eq_some hshown with ⟨chain, id, caller, complete, hcall, hok⟩
  rcases complete_eq_ok_iff.1 hok with ⟨session, seed, hsession, hcompletes⟩
  have hpending := (SessionStore.mem_of_session? hsession).1
  rcases claimed_of_mem_pending hpending with ⟨hlen, hquorum⟩
  rcases exists_active_of_mem_pending hpending with ⟨earlier, between, rfl, hset⟩
  have haccepts := hcompletes.accepts
  refine ⟨earlier, between ++ call :: after, List.append_assoc _ _ _, chain, id, caller, complete,
    payload, session, hcall, hok, hsession, hset, ?_, ?_, ?_, rfl, rfl, rfl⟩
  · rw [← hset]
    exact haccepts.validatorSetId
  · rw [← hset]
    exact haccepts.attests hlen hquorum
  · have hincluded := haccepts.included
    rwa [Leaf.decode_eq_ok_iff.1 haccepts.leaf] at hincluded

/-! ## The succession -/

/-- In a run that rotates only to sets named by leaves that were shown before, the sets are numbered
one after the other, the active one is always the last, and each but the initial one is vouched for:
before it was installed, a session of an earlier set was completed with a leaf that names it. -/
theorem validatorSets_succeed (h : (new initial config).FollowsLeaves calls) :
    (∀ j set, ((new initial config).validatorSets calls)[j]? = some set →
      set.id.toNat = initial.id.toNat + j) ∧
    (∀ before after, calls = before ++ after →
      ((new initial config).validatorSets before).getLast? =
        some ((new initial config).run before).validatorSet) ∧
    ∀ j next, 1 ≤ j → ((new initial config).validatorSets calls)[j]? = some next →
      ∃ past rotation later completion i set,
        (new initial config).history calls = past ++ rotation :: later ∧
        rotation.installed? = some next ∧ (past.filterMap Step.installed?).length + 1 = j ∧
        completion ∈ past ∧ i < j ∧ ((new initial config).validatorSets calls)[i]? = some set ∧
        completion.HandsOver set next := by
  refine ⟨fun j set hset => id_of_validatorSets hset,
    fun before _ _ => getLast?_validatorSets _ before, ?_⟩
  intro j next hj hnext
  obtain ⟨k, rfl⟩ : ∃ k, j = k + 1 := ⟨j - 1, by omega⟩
  have hinstalled : ((new initial config).installed calls)[k]? = some next := hnext
  rcases exists_append_of_getElem?_filterMap hinstalled with
    ⟨past, rotation, later, hhistory, hrotation, hcount⟩
  rcases h past rotation later next hhistory (Step.call_of_installed? hrotation) with
    ⟨completion, hcompletion, payload, hshown, rfl⟩
  rcases exists_calls_of_history_eq hhistory with ⟨before, call, after, rfl, rfl, -⟩
  -- The session was opened before it was completed, and it was completed before the rotation.
  rcases exists_handsOver hcompletion hshown with ⟨earlier, between, rfl, hhandsOver⟩
  have hle : ((new initial config).installed earlier).length ≤ k := by
    rw [← hcount]
    show _ ≤ ((new initial config).installed (earlier ++ between)).length
    rw [installed_append, List.length_append]
    omega
  have hset := getElem?_validatorSets_append (new initial config) earlier (between ++ call :: after)
  rw [← List.append_assoc] at hset
  exact ⟨_, rotation, later, completion, _, _, hhistory, hrotation, by rw [hcount], hcompletion,
    Nat.lt_succ_of_le hle, hset, hhandsOver⟩

/-! ## A run with a rotation -/

namespace Sample

/-- Both validators again, as the set that comes next. -/
def successor : ValidatorSet := { validatorSet with id := 1 }

/-- A leaf that names the next set. -/
def successorLeaf : Leaf := ⟨⟨0⟩, 1, .zero, .zero, ⟨1, 2, validatorSet.root⟩⟩

/-- A commitment to the range of this leaf alone. -/
def handover : Commitment := ⟨(MountainRange.ofLeaves [successorLeaf]).root Keccak.digest, 100, 0⟩

/-- The signatures of both validators over it. -/
def handoverSignatures : List Signature :=
  [{ r := .ofNat 20850952959064157710889117518703264459748641805756862325776409356757427672298
     s := .ofNat 22021145781484785003582964614052042757978183350144738798997121486652256863846
     v := 1 },
    { r := .ofNat 15005545558447894181128016900676408263406729672096845843044643453616212307283
      s := .ofNat 37462605797805665948201791140670615215700072756099162084335569585669367335486
      v := 1 }]

/-- Opens a session for it. -/
def openHandover : Call :=
  .initiate (hostChain 10)
    { opening with commitmentHash := handover.digest, signature := handoverSignatures[1] }

/-- Completes the session. -/
def completeHandover : Call :=
  .complete (hostChain 60) ⟨0⟩ .zero
    ⟨handover, handoverSignatures, proofs, successorLeaf.encode, ⟨0, 1, []⟩⟩

/-- The client rotates to the set that the completion names. -/
def handoverCalls : List Call := [openHandover, completeHandover, .rotate successor]

theorem shown?_completeHandover :
    Step.shown? ⟨(new validatorSet .standard).after openHandover, completeHandover⟩ =
      some ⟨handover.payload, successorLeaf⟩ := by
  decide +kernel

theorem followsLeaves_handoverCalls : (new validatorSet .standard).FollowsLeaves handoverCalls := by
  intro past step later next hhistory hcall
  rcases exists_calls_of_history_eq hhistory with ⟨before, call, after, hcalls, rfl, rfl⟩
  obtain rfl : call = .rotate next := hcall
  -- Only the last of the three calls is a rotation.
  rcases before with _ | ⟨first, _ | ⟨second, _ | ⟨third, before⟩⟩⟩
  · injection hcalls with hcall
    exact absurd hcall nofun
  · injection hcalls with _ hcalls
    injection hcalls with hcall
    exact absurd hcall nofun
  · injection hcalls with hfirst hcalls
    injection hcalls with hsecond hcalls
    injection hcalls with hrotate
    injection hrotate with hset
    subst hfirst hsecond hset
    exact ⟨_, List.mem_cons_of_mem _ List.mem_cons_self, _, shown?_completeHandover, rfl⟩
  · have hlength := congrArg List.length hcalls
    simp [handoverCalls] at hlength

theorem validatorSets_handoverCalls :
    (new validatorSet .standard).validatorSets handoverCalls = [validatorSet, successor] := by
  have hnone : (new validatorSet .standard).installed [openHandover, completeHandover] = [] := rfl
  have hlast := getLast?_validatorSets (new validatorSet .standard) [openHandover, completeHandover]
  rw [validatorSets, hnone, List.getLast?_singleton, Option.some.injEq] at hlast
  have hinstalled : Step.installed? ⟨(new validatorSet .standard).run
      [openHandover, completeHandover], .rotate successor⟩ = some successor := by
    apply Step.installed?_rotate
    rw [← hlast]
    rfl
  have hrotation : ((new validatorSet .standard).run [openHandover, completeHandover]).installed
      [.rotate successor] = [successor] := List.filterMap_cons_some hinstalled
  have hcalls : handoverCalls = [openHandover, completeHandover] ++ [.rotate successor] := rfl
  rw [validatorSets, hcalls, installed_append, hnone, hrotation]
  rfl

theorem successor_succeeds :
    (new validatorSet .standard).FollowsLeaves handoverCalls ∧
      (new validatorSet .standard).validatorSets handoverCalls = [validatorSet, successor] ∧
      ∃ completion ∈ (new validatorSet .standard).history handoverCalls,
        completion.HandsOver validatorSet successor := by
  refine ⟨followsLeaves_handoverCalls, validatorSets_handoverCalls, ?_⟩
  rcases (validatorSets_succeed followsLeaves_handoverCalls).2.2 1 successor (Nat.le_refl 1)
      (by rw [validatorSets_handoverCalls]; rfl) with
    ⟨past, rotation, later, completion, i, set, hhistory, -, -, hmem, hlt, hset, hhandsOver⟩
  obtain rfl : i = 0 := by omega
  rw [validatorSets_handoverCalls] at hset
  cases hset
  refine ⟨completion, ?_, hhandsOver⟩
  rw [hhistory]
  exact List.mem_append_left _ hmem

end Sample

end Client

end FinalityBridge
