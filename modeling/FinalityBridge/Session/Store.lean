import FinalityBridge.Session.Outcomes

/-!
# The session store

Pending sessions are kept in full, in the order in which they were opened; of a session that has
ended only its outcome is kept. Ids are given out one after the other.
-/

namespace FinalityBridge

structure SessionStore where
  -- The pending sessions, oldest first.
  pending : List Session
  -- The outcomes of ended sessions.
  finished : Outcomes
  -- The id that the next session gets.
  nextId : SessionId
deriving DecidableEq

namespace SessionStore

def empty : SessionStore := ⟨[], [], ⟨0⟩⟩

def session? (store : SessionStore) (id : SessionId) : Option Session :=
  store.pending.find? fun session => session.id = id

def outcome? (store : SessionStore) (id : SessionId) : Option Outcome :=
  store.finished.get? id

/-- The status of the session with an id, if there has been one. -/
def status? (store : SessionStore) (id : SessionId) : Option SessionStatus :=
  match store.session? id with
  | some _ => some .pending
  | none => (store.outcome? id).map Outcome.status

/-- The pending session with an id, or why there is none. -/
def get (store : SessionStore) (id : SessionId) : Except Error Session :=
  match store.session? id with
  | some session => .ok session
  | none =>
    match store.outcome? id with
    | some .completed => .error (.alreadyCompleted id)
    | some .expired => .error (.expired id)
    | none => .error (.unknownSession id)

def insert (store : SessionStore) (session : SessionId → Session) : SessionStore where
  pending := store.pending ++ [session store.nextId]
  finished := store.finished
  nextId := ⟨store.nextId.value + 1⟩

/-- Ends a pending session and keeps its outcome. A session that is not pending stays as it is. -/
def finish (store : SessionStore) (id : SessionId) (outcome : Outcome) : SessionStore :=
  match store.session? id with
  | some _ =>
    { store with
      pending := store.pending.filter fun session => session.id ≠ id
      finished := store.finished.record id outcome }
  | none => store

end SessionStore

end FinalityBridge
