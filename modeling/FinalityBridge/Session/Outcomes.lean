import FinalityBridge.Session.Basic

/-!
# Outcomes of ended sessions

How each ended session ended, in ascending order of id. Main statements: a lookup finds what was
recorded last (`get?_record`), and the order in which two sessions end leaves no trace
(`record_comm`).
-/

namespace FinalityBridge

abbrev Outcomes := List (SessionId × Outcome)

namespace Outcomes

def get? (id : SessionId) : Outcomes → Option Outcome
  | [] => none
  | entry :: rest => if entry.1 = id then some entry.2 else get? id rest

/-- Records an outcome in its place by id. It replaces one that was recorded before. -/
def record (id : SessionId) (outcome : Outcome) : Outcomes → Outcomes
  | [] => [(id, outcome)]
  | entry :: rest =>
    if id.value < entry.1.value then (id, outcome) :: entry :: rest
    else if id = entry.1 then (id, outcome) :: rest
    else entry :: record id outcome rest

theorem get?_record (id other : SessionId) (outcome : Outcome) (outcomes : Outcomes) :
    (outcomes.record id outcome).get? other =
      if id = other then some outcome else outcomes.get? other := by
  induction outcomes with
  | nil => rfl
  | cons entry rest ih => grind [record, get?]

theorem record_comm {id other : SessionId} (h : id ≠ other) (a b : Outcome) (outcomes : Outcomes) :
    (outcomes.record id a).record other b = (outcomes.record other b).record id a := by
  have hne : id.value ≠ other.value := fun e => h (by cases id; cases other; simp_all)
  induction outcomes with
  | nil => grind [record]
  | cons entry rest ih => grind [record]

end Outcomes

end FinalityBridge
