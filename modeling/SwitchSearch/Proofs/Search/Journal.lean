import SwitchSearch.Search.Basic

/-!
This module contains what the journal of a search tells of its last run.
-/

namespace SwitchSearch

namespace Event

def taken? : Event → Option Node
  | .take node => some node
  | _ => none

def offered : Event → List Node
  | .offer batch _ => batch
  | _ => []

end Event

namespace Search

variable {α : Type} {search next : Search α}

def lastTaken (search : Search α) : List Node :=
  search.lastRun.filterMap (·.taken?)

def lastOffered (search : Search α) : List Node :=
  search.lastRun.flatMap (·.offered)

theorem lastRun_go_append {events : List Event} (run journal : List Event) (hevents : .start ∉ events)
    : lastRun.go run (events ++ journal) = lastRun.go (events.reverse ++ run) journal := by
  induction events generalizing run with
  | nil => rfl
  | cons event events ih =>
    rw [List.mem_cons, not_or] at hevents
    have hgo : lastRun.go run (event :: (events ++ journal)) =
        lastRun.go (event :: run) (events ++ journal) := by
      cases event with
      | start => exact absurd rfl hevents.left
      | _ => rfl
    rw [List.cons_append, hgo, ih _ hevents.right, List.reverse_cons, List.append_assoc]
    rfl

theorem lastRun_go (run journal : List Event)
    : lastRun.go run journal = lastRun.go [] journal ++ run := by
  induction journal generalizing run with
  | nil => rfl
  | cons event earlier ih =>
    cases event with
    | start => rfl
    | _ =>
      simp only [lastRun.go]
      rw [ih, ih [_], List.append_assoc]
      rfl

theorem lastRun_of_journal {events : List Event} (hjournal : next.journal = events ++ search.journal)
    (hevents : .start ∉ events)
    : next.lastRun = search.lastRun ++ events.reverse := by
  rw [lastRun, hjournal, lastRun_go_append _ _ hevents, lastRun_go, List.append_nil]
  rfl

end Search

end SwitchSearch
