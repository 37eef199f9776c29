import SwitchSearch.Proofs.Agenda.Operations
import SwitchSearch.Proofs.Pool.Handles

/-!
This module contains the proof that the handles of a pool fall into groups, each of which behaves like one
queue that nobody shares: it gets the calls made through its own handles, in the order of the turns, and
no other.
-/

namespace SwitchSearch

/-- What a client does to the queue behind a handle. Nobody else uses the queue in the meantime. -/
inductive Call (α β : Type) where
  | perform (operation : Operation)
  | size
  | isEmpty
  | within (body : α → β × α)

inductive Reply (β : Type) where
  | answered (answer : Answer)
  | sized (size : Nat)
  | found (isEmpty : Bool)
  | returned (value : β)
  | handed (handle : Nat)

inductive Request (α β : Type) where
  | ask (handle : Nat) (call : Call α β)
  | share (handle : Nat)
  | fresh (queue : α)

/-- Clients send their requests in any order, so each list of turns is one way for them to meet. -/
structure Turn (α β : Type) where
  client : Nat
  request : Request α β

/-- All handles shared from one handle, the origin, and from each other. -/
structure Group (α : Type) where
  origin : Nat
  queue : α

theorem getElem?_concat {γ : Type} (items : List γ) (last : γ) (index : Nat)
    : (items ++ [last])[index]? = if index = items.length then some last else items[index]? := by
  rw [List.getElem?_append]
  grind

variable {α β : Type} {groups : List (Group α)}

namespace Request

def joined (groups : List (Group α)) : Request α β → List (Group α)
  | .ask _ _ => groups
  | .share handle => groups ++ groups[handle]?.toList
  | .fresh queue => groups ++ [{ origin := groups.length, queue }]

def callTo (groups : List (Group α)) (origin : Nat) : Request α β → Option (Call α β)
  | .ask handle call =>
    if groups[handle]?.map (·.origin) = some origin then some call else none
  | _ => none

theorem getElem?_joined_share (handle other : Nat)
    : ((share handle : Request α β).joined groups)[other]? =
      groups[if other = groups.length then handle else other]? := by
  change (groups ++ groups[handle]?.toList)[other]? = _
  cases hgroup : groups[handle]? with
  | none =>
    rw [Option.toList_none, List.append_nil]
    split
    . next hlast => simp [hlast, hgroup]
    . rfl
  | some group =>
    rw [Option.toList_some, getElem?_concat]
    split
    . rw [hgroup]
    . rfl

theorem getElem?_joined_fresh (queue : α) (other : Nat)
    : ((fresh queue : Request α β).joined groups)[other]? =
      if other = groups.length then some { origin := groups.length, queue } else groups[other]? :=
  getElem?_concat groups _ other

theorem getElem?_joined {handle : Nat} {group : Group α} (h : groups[handle]? = some group)
    (request : Request α β)
    : (request.joined groups)[handle]? = some group := by
  have hlt : handle < groups.length := (List.getElem?_eq_some_iff.mp h).choose
  cases request with
  | ask handle call => exact h
  | share handle => exact (List.getElem?_append_left hlt).trans h
  | fresh queue => exact (List.getElem?_append_left hlt).trans h

end Request

namespace Group

def founded (queue : α) : List (Group α) :=
  [{ origin := 0, queue }]

def after (groups : List (Group α)) (turns : List (Turn α β)) : List (Group α) :=
  turns.foldl (fun groups turn => turn.request.joined groups) groups

def formed (start : α) (turns : List (Turn α β)) : List (Group α) :=
  after (founded start) turns

def calls (origin : Nat) : List (Group α) → List (Turn α β) → List (Nat × Call α β)
  | _, [] => []
  | groups, turn :: turns =>
    ((turn.request.callTo groups origin).map (turn.client, ·)).toList ++
      calls origin (turn.request.joined groups) turns

def callsSince (start : α) (turns later : List (Turn α β)) (group : Group α) : List (Nat × Call α β) :=
  calls group.origin (formed start turns) later

theorem after_append (groups : List (Group α)) (first second : List (Turn α β))
    : after groups (first ++ second) = after (after groups first) second :=
  List.foldl_append

theorem formed_append (start : α) (first second : List (Turn α β))
    : formed start (first ++ second) = after (formed start first) second :=
  after_append (founded start) first second

theorem formed_concat (start : α) (turns : List (Turn α β)) (turn : Turn α β)
    : formed start (turns ++ [turn]) = turn.request.joined (formed start turns) :=
  formed_append start turns [turn]

theorem calls_append (origin : Nat) (groups : List (Group α)) (first second : List (Turn α β))
    : calls origin groups (first ++ second) =
      calls origin groups first ++ calls origin (after groups first) second := by
  induction first generalizing groups with
  | nil => rfl
  | cons turn first ih =>
    simp only [List.cons_append, calls, ih, List.append_assoc]
    rfl

theorem getElem?_after {handle : Nat} {group : Group α} (h : groups[handle]? = some group)
    (turns : List (Turn α β))
    : (after groups turns)[handle]? = some group := by
  induction turns generalizing groups with
  | nil => exact h
  | cons turn turns ih => exact ih (Request.getElem?_joined h turn.request)

def Numbered (groups : List (Group α)) : Prop :=
  ∀ group ∈ groups, group.origin < groups.length

theorem numbered_founded (queue : α) : Numbered (founded queue) := by
  intro group hmem
  rw [List.mem_singleton.mp hmem]
  exact Nat.zero_lt_one

theorem length_le_joined (groups : List (Group α)) (request : Request α β)
    : groups.length ≤ (request.joined groups).length := by
  cases request with
  | ask handle call => exact Nat.le_refl _
  | share handle => exact (List.sublist_append_left groups _).length_le
  | fresh queue => exact (List.sublist_append_left groups _).length_le

theorem length_le_after (groups : List (Group α)) (turns : List (Turn α β))
    : groups.length ≤ (after groups turns).length := by
  induction turns generalizing groups with
  | nil => exact Nat.le_refl _
  | cons turn turns ih => exact Nat.le_trans (length_le_joined groups turn.request) (ih _)

theorem Numbered.joined (h : Numbered groups) (request : Request α β)
    : Numbered (request.joined groups) := by
  intro group hmem
  cases request with
  | ask handle call => exact h group hmem
  | share handle =>
    have hgroup : group ∈ groups := by
      rcases List.mem_append.mp hmem with hearlier | hshared
      . exact hearlier
      . exact List.mem_of_getElem? (Option.mem_toList.mp hshared)
    exact Nat.lt_of_lt_of_le (h group hgroup) (length_le_joined groups (.share handle : Request α β))
  | fresh queue =>
    change group.origin < (groups ++ _).length
    rw [List.length_append, List.length_singleton]
    rcases List.mem_append.mp hmem with hearlier | hfounded
    . exact Nat.lt_add_one_of_lt (h group hearlier)
    . rw [List.mem_singleton.mp hfounded]
      exact Nat.lt_add_one _

theorem Numbered.after (h : Numbered groups) (turns : List (Turn α β))
    : Numbered (after groups turns) := by
  induction turns generalizing groups with
  | nil => exact h
  | cons turn turns ih => exact ih (h.joined turn.request)

theorem Numbered.callTo_eq_none (h : Numbered groups) {origin : Nat} (hle : groups.length ≤ origin)
    (request : Request α β)
    : request.callTo groups origin = none := by
  cases request with
  | ask handle call =>
    apply if_neg
    intro hsome
    rcases Option.map_eq_some_iff.mp hsome with ⟨group, hgroup, rfl⟩
    exact absurd (h group (List.mem_of_getElem? hgroup)) (Nat.not_lt.mpr hle)
  | share handle => rfl
  | fresh queue => rfl

theorem Numbered.map_origin_ne (h : Numbered groups) (handle : Nat)
    : groups[handle]?.map (·.origin) ≠ some groups.length := by
  intro hsome
  rcases Option.map_eq_some_iff.mp hsome with ⟨group, hgroup, heq⟩
  exact Nat.ne_of_lt (h group (List.mem_of_getElem? hgroup)) heq

theorem Numbered.calls_eq_nil (h : Numbered groups) {origin : Nat} {turns : List (Turn α β)}
    (hle : (Group.after groups turns).length ≤ origin)
    : calls origin groups turns = [] := by
  induction turns generalizing groups with
  | nil => rfl
  | cons turn turns ih =>
    have hearlier : groups.length ≤ origin := Nat.le_trans (length_le_after groups (turn :: turns)) hle
    rw [calls, h.callTo_eq_none hearlier, ih (h.joined turn.request) hle]
    rfl

end Group

namespace Call

variable [Agenda α]

def on (call : Call α β) (queue : α) : Reply β × α :=
  match call with
  | .perform operation =>
    let (answer, queue) := Agenda.perform queue operation
    (.answered answer, queue)
  | .size => (.sized (Agenda.size queue), queue)
  | .isEmpty => (.found (Agenda.isEmpty queue), queue)
  | .within body =>
    let (value, queue) := body queue
    (.returned value, queue)

def replay (queue : α) (calls : List (Nat × Call α β)) : α :=
  calls.foldl (fun queue (_, call) => (call.on queue).2) queue

theorem replay_append (queue : α) (first second : List (Nat × Call α β))
    : replay queue (first ++ second) = replay (replay queue first) second :=
  List.foldl_append

end Call

variable [Agenda α] {start : α} {turns : List (Turn α β)} {pool : Pool α}

namespace Group

def plain (start : α) (turns : List (Turn α β)) (group : Group α) : α :=
  Call.replay group.queue (calls group.origin (founded start) turns)

theorem plain_append (first second : List (Turn α β)) (group : Group α)
    : plain start (first ++ second) group =
      Call.replay (plain start first group) (callsSince start first second group) := by
  unfold plain
  rw [calls_append, Call.replay_append]
  rfl

theorem plain_concat (turn : Turn α β) (group : Group α)
    : plain start (turns ++ [turn]) group =
      match turn.request.callTo (formed start turns) group.origin with
      | none => plain start turns group
      | some call => (call.on (plain start turns group)).2 := by
  rw [plain_append]
  change Call.replay _ (((turn.request.callTo (formed start turns) group.origin).map _).toList ++ []) = _
  cases turn.request.callTo (formed start turns) group.origin <;> rfl

theorem plain_concat_of_callTo {turn : Turn α β} {group : Group α}
    (hcall : turn.request.callTo (formed start turns) group.origin = none)
    : plain start (turns ++ [turn]) group = plain start turns group := by
  rw [plain_concat, hcall]

theorem plain_of_length_le {group : Group α} (h : (formed start turns).length ≤ group.origin)
    : plain start turns group = group.queue := by
  unfold plain
  rw [(numbered_founded start).calls_eq_nil h]
  rfl

def reply (start : α) (turns : List (Turn α β)) : Request α β → Option (Reply β)
  | .ask handle call => (formed start turns)[handle]?.map fun group => (call.on (plain start turns group)).1
  | .share handle => (formed start turns)[handle]?.map fun _ => .handed (formed start turns).length
  | .fresh _ => some (.handed (formed start turns).length)

end Group

namespace Pool

def serve (pool : Pool α) : Request α β → Option (Reply β) × Pool α
  | .ask handle call => pool.run handle call.on
  | .share handle => ((pool.queue? handle).map fun _ => .handed pool.handles.size, pool.share handle)
  | .fresh queue => (some (.handed pool.handles.size), pool.fresh queue)

def after (start : α) (turns : List (Turn α β)) : Pool α :=
  turns.foldl (fun pool turn => (pool.serve turn.request).2) (.single start)

structure Separates (start : α) (turns : List (Turn α β)) (pool : Pool α) : Prop where
  queue?_eq : ∀ handle, pool.queue? handle = (Group.formed start turns)[handle]?.map (Group.plain start turns)
  group?_eq_iff : ∀ handle other, pool.group? handle = pool.group? other ↔
    (Group.formed start turns)[handle]?.map (·.origin) = (Group.formed start turns)[other]?.map (·.origin)

theorem separates_single (start : α) : Separates start ([] : List (Turn α β)) (.single start) := by
  constructor
  . rintro (_ | handle) <;> rfl
  . rintro (_ | handle) (_ | other)
    . exact iff_of_true rfl rfl
    . exact iff_of_false nofun nofun
    . exact iff_of_false nofun nofun
    . exact iff_of_true rfl rfl

theorem Separates.size_eq (h : Separates start turns pool)
    : pool.handles.size = (Group.formed start turns).length := by
  have hle : ∀ handle, pool.handles.size ≤ handle ↔ (Group.formed start turns).length ≤ handle := by
    intro handle
    rw [← queue?_eq_none_iff, h.queue?_eq, Option.map_eq_none_iff, List.getElem?_eq_none_iff]
  exact Nat.le_antisymm ((hle _).mpr (Nat.le_refl _)) ((hle _).mp (Nat.le_refl _))

theorem Separates.ask (h : Separates start turns pool) (client handle : Nat) (call : Call α β)
    : Separates start (turns ++ [{ client, request := .ask handle call }]) (pool.run handle call.on).2 := by
  constructor
  . intro other
    simp only [queue?_run, h.queue?_eq, h.group?_eq_iff, Group.formed_concat, Request.joined]
    cases hgroup : (Group.formed start turns)[other]? with
    | none => simp
    | some group =>
      simp only [Option.map_some, Group.plain_concat, Request.callTo]
      split <;> rfl
  . intro first second
    rw [group?_run, group?_run, Group.formed_concat]
    exact h.group?_eq_iff first second

theorem Separates.share (h : Separates start turns pool) (client handle : Nat)
    : Separates start (turns ++ [{ client, request := .share handle }]) (pool.share handle) := by
  constructor
  . intro other
    rw [queue?_share, h.queue?_eq, h.size_eq, Group.formed_concat, Request.getElem?_joined_share]
    congr 1
    funext group
    exact (Group.plain_concat_of_callTo rfl).symm
  . intro first second
    rw [group?_share, group?_share, h.size_eq, Group.formed_concat, Request.getElem?_joined_share,
      Request.getElem?_joined_share]
    exact h.group?_eq_iff _ _

theorem Separates.fresh (h : Separates start turns pool) (client : Nat) (queue : α)
    : Separates start (turns ++ [{ client, request := .fresh queue }]) (pool.fresh queue) := by
  have hnumbered : Group.Numbered (Group.formed start turns) := (Group.numbered_founded start).after turns
  constructor
  . intro other
    have hplain : ∀ group, Group.plain start (turns ++ [{ client, request := .fresh queue }]) group =
        Group.plain start turns group :=
      fun group => Group.plain_concat_of_callTo rfl
    rw [queue?_fresh, h.size_eq, Group.formed_concat, Request.getElem?_joined_fresh]
    split
    . -- no call has got to the new group yet, not even under its number
      rw [Option.map_some, hplain, Group.plain_of_length_le (Nat.le_refl _)]
    . rw [h.queue?_eq, funext hplain]
  . intro first second
    rw [group?_fresh, group?_fresh, h.size_eq, Group.formed_concat, Request.getElem?_joined_fresh,
      Request.getElem?_joined_fresh]
    split
    . split
      . exact iff_of_true rfl rfl
      . exact iff_of_false (group?_ne_groups second).symm (hnumbered.map_origin_ne second).symm
    . split
      . exact iff_of_false (group?_ne_groups first) (hnumbered.map_origin_ne first)
      . exact h.group?_eq_iff first second

theorem Separates.serve (h : Separates start turns pool) (turn : Turn α β)
    : Separates start (turns ++ [turn]) (pool.serve turn.request).2 := by
  rcases turn with ⟨client, request⟩
  cases request with
  | ask handle call => exact h.ask client handle call
  | share handle => exact h.share client handle
  | fresh queue => exact h.fresh client queue

theorem Separates.serve_fst (h : Separates start turns pool) (request : Request α β)
    : (pool.serve request).1 = Group.reply start turns request := by
  cases request with
  | ask handle call =>
    change (pool.run handle call.on).1 = _
    rw [run_fst, h.queue?_eq, Option.map_map]
    rfl
  | share handle =>
    change (pool.queue? handle).map _ = _
    rw [h.queue?_eq, Option.map_map, h.size_eq]
    rfl
  | fresh queue =>
    change some (Reply.handed pool.handles.size) = _
    rw [h.size_eq]
    rfl

theorem Separates.serve_of_callTo {handle : Nat} {group : Group α} {request : Request α β} {call : Call α β}
    (h : Separates start turns pool) (hgroup : (Group.formed start turns)[handle]? = some group)
    (hcall : request.callTo (Group.formed start turns) group.origin = some call)
    : (pool.serve request).1 = some (call.on (Group.plain start turns group)).1 := by
  unfold Request.callTo at hcall
  split at hcall
  . next other made =>
    split at hcall
    . next hsame =>
      cases hcall
      have hgroups : pool.group? other = pool.group? handle := by
        rw [h.group?_eq_iff, hsame, hgroup]
        rfl
      change (pool.run other call.on).1 = _
      rw [run_fst, queue?_eq_bind, hgroups, ← queue?_eq_bind, h.queue?_eq, hgroup]
      rfl
    . contradiction
  . contradiction

theorem Separates.view_eq (h : Separates start turns pool)
    : pool.view = (Group.formed start turns).map (Group.plain start turns) := by
  apply List.ext_getElem?
  intro handle
  rw [getElem?_view, h.queue?_eq, List.getElem?_map]

theorem after_concat (start : α) (turns : List (Turn α β)) (turn : Turn α β)
    : after start (turns ++ [turn]) = ((after start turns).serve turn.request).2 :=
  List.foldl_append

theorem separates_after (start : α) (turns : List (Turn α β)) : Separates start turns (after start turns) := by
  induction turns using List.reverseRecOn with
  | nil => exact separates_single start
  | append_singleton turns turn ih =>
    rw [after_concat]
    exact ih.serve turn

theorem queue?_serve {handle : Nat} {group : Group α} {request : Request α β}
    (hgroup : (Group.formed start turns)[handle]? = some group)
    (hcall : request.callTo (Group.formed start turns) group.origin = none)
    : ((after start turns).serve request).2.queue? handle = (after start turns).queue? handle := by
  have hbefore := separates_after start turns
  have hserved := hbefore.serve { client := 0, request }
  rw [hserved.queue?_eq, Group.formed_concat, Request.getElem?_joined hgroup, Option.map_some,
    Group.plain_concat_of_callTo hcall, hbefore.queue?_eq, hgroup]
  rfl

end Pool

end SwitchSearch
