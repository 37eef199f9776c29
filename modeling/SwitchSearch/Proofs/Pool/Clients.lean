import Mathlib.Data.Finset.Card
import SwitchSearch.Proofs.DiveQueue.Admission
import SwitchSearch.Proofs.DiveQueue.Conservation
import SwitchSearch.Proofs.Pool.Groups

/-!
This module contains the proof that clients who share a queue do not run out of nodes, in whatever order
they meet: if each of them adds a batch before it takes a node, there is a node for each of them.
-/

namespace SwitchSearch

variable {α β : Type}

namespace Call

def offered : Call α β → List Node
  | .perform (.push _ batch) => batch
  | _ => []

def takes : Call α β → Bool
  | .perform .pop => true
  | _ => false

def Looks : Call α β → Prop
  | .perform .top | .size | .isEmpty => True
  | .within body => ∀ queue, (body queue).2 = queue
  | _ => False

def ofClient (client : Nat) (calls : List (Nat × Call α β)) : List (Call α β) :=
  (calls.filter (·.1 == client)).map (·.2)

/--
The calls of a client that adds a valid batch and later takes a node, again and again. It may look at the
queue in between, and it may stop at any time. At first it does or does not owe the taking of a node.
-/
inductive Cycles : Bool → List (Call α β) → Prop where
  | stops {owes : Bool}
    : Cycles owes []
  | looks {owes : Bool} {call : Call α β} {calls : List (Call α β)} (hlooks : call.Looks)
      (hrest : Cycles owes calls)
    : Cycles owes (call :: calls)
  | adds {context : Context} {batch : List Node} {calls : List (Call α β)} (hne : batch ≠ [])
      (hvalid : context.checkBatch batch = .ok ()) (hrest : Cycles true calls)
    : Cycles false (.perform (.push context batch) :: calls)
  | takes {calls : List (Call α β)} (hrest : Cycles false calls)
    : Cycles true (.perform .pop :: calls)

theorem ofClient_cons_self (client : Nat) (call : Call α β) (calls : List (Nat × Call α β))
    : ofClient client ((client, call) :: calls) = call :: ofClient client calls := by
  simp [ofClient]

theorem ofClient_cons_of_ne {client other : Nat} (hne : other ≠ client) (call : Call α β)
    (calls : List (Nat × Call α β))
    : ofClient other ((client, call) :: calls) = ofClient other calls := by
  simp [ofClient, hne.symm]

theorem Looks.on_snd {call : Call α β} [Agenda α] (h : call.Looks) (queue : α) : (call.on queue).2 = queue := by
  unfold Looks at h
  split at h
  . rfl
  . rfl
  . rfl
  . exact h queue
  . contradiction

theorem Looks.takes_eq {call : Call α β} (h : call.Looks) : call.takes = false := by
  unfold takes
  split
  . contradiction
  . rfl

theorem Looks.offered_eq {call : Call α β} (h : call.Looks) : call.offered = [] := by
  unfold offered
  split
  . contradiction
  . rfl

end Call

namespace DiveQueue

variable {queue next : DiveQueue} {call : Call DiveQueue β} {calls rest : List (Nat × Call DiveQueue β)}
  {client : Nat} {owing : Finset Nat}

theorem size_push {context : Context} {batch : List Node} (hvalid : context.checkBatch batch = .ok ())
    : (queue.push context batch).2.size = queue.size + batch.length := by
  have hperm := nodes_push_of_ok (push_eq_ok_iff.mpr (.inr hvalid) : (queue.push context batch).1 = .ok ())
  rw [size_eq_length_nodes, size_eq_length_nodes, hperm.length_eq, List.length_append, Nat.add_comm]

theorem exists_pop_of_size_pos (hpos : 0 < queue.size)
    : ∃ node rest, queue.pop = (.ok node, rest) ∧ queue.size = rest.size + 1 := by
  rw [size_eq_length_nodes, List.length_pos_iff] at hpos
  rcases exists_pop_of_nodes_ne_nil hpos with ⟨node, rest, hpop, hperm⟩
  refine ⟨node, rest, hpop, ?_⟩
  rw [size_eq_length_nodes, size_eq_length_nodes, hperm.length_eq, List.length_cons]

structure Provides (queue : DiveQueue) (owing : Finset Nat) (calls : List (Nat × Call DiveQueue β)) :
    Prop where
  card_le : owing.card ≤ queue.size
  cycles : ∀ client, Call.Cycles (decide (client ∈ owing)) (Call.ofClient client calls)

theorem Provides.advance {still : Finset Nat} (h : Provides queue owing ((client, call) :: calls))
    (hcard : still.card ≤ next.size)
    (hcycles : Call.Cycles (decide (client ∈ still)) (Call.ofClient client calls))
    (hothers : ∀ other ≠ client, other ∈ still ↔ other ∈ owing)
    : Provides next still calls := by
  refine ⟨hcard, ?_⟩
  intro other
  by_cases hother : other = client
  . rwa [hother]
  . have hearlier := h.cycles other
    rwa [Call.ofClient_cons_of_ne hother, ← decide_eq_decide.mpr (hothers other hother)] at hearlier

theorem Provides.step (h : Provides queue owing ((client, call) :: calls))
    : (∃ still, Provides (call.on queue).2 still calls) ∧
      (call.on queue).2.size + (if call.takes then 1 else 0) = queue.size + call.offered.length ∧
      (call.takes = true → ∃ node, (call.on queue).1 = .answered (.popped (.ok node))) := by
  have hcalls := h.cycles client
  rw [Call.ofClient_cons_self] at hcalls
  -- what the client may call depends on whether it owes the taking of a node
  generalize howes : decide (client ∈ owing) = owes at hcalls
  cases hcalls with
  | looks hlooks hrest =>
    rw [hlooks.on_snd, hlooks.takes_eq, hlooks.offered_eq]
    exact ⟨⟨owing, h.advance h.card_le (howes ▸ hrest) fun _ _ => Iff.rfl⟩, rfl, nofun⟩
  | @adds context batch _ hne hvalid hrest =>
    have hfree : client ∉ owing := of_decide_eq_false howes
    have hsize : (queue.push context batch).2.size = queue.size + batch.length := size_push hvalid
    refine ⟨⟨insert client owing, h.advance ?_ ?_ ?_⟩, hsize, nofun⟩
    . change _ ≤ (queue.push context batch).2.size
      rw [Finset.card_insert_of_notMem hfree, hsize]
      exact Nat.add_le_add h.card_le (List.length_pos_iff.mpr hne)
    . rwa [decide_eq_true (Finset.mem_insert_self client owing)]
    . exact fun other hother => Finset.mem_insert.trans (or_iff_right hother)
  | takes hrest =>
    have howing : client ∈ owing := of_decide_eq_true howes
    have hpos : 0 < queue.size := Nat.lt_of_lt_of_le (Finset.card_pos.mpr ⟨client, howing⟩) h.card_le
    rcases exists_pop_of_size_pos hpos with ⟨node, rest, hpop, hsize⟩
    have hon : (Call.perform .pop : Call DiveQueue β).on queue = (.answered (.popped (.ok node)), rest) := by
      change (Reply.answered (.popped queue.pop.1), queue.pop.2) = _
      rw [hpop]
    rw [hon]
    refine ⟨⟨owing.erase client, h.advance ?_ ?_ ?_⟩, hsize.symm, fun _ => ⟨node, rfl⟩⟩
    . rw [Finset.card_erase_of_mem howing]
      exact Nat.sub_le_of_le_add (hsize ▸ h.card_le)
    . rwa [decide_eq_false (Finset.notMem_erase client owing)]
    . exact fun other hother => Finset.mem_erase.trans (and_iff_right hother)

theorem Provides.replay (h : Provides queue owing (calls ++ rest))
    : ∃ still, Provides (Call.replay queue calls) still rest := by
  induction calls generalizing queue owing with
  | nil => exact ⟨owing, h⟩
  | cons call calls ih =>
    rcases h.step.left with ⟨still, hstill⟩
    exact ih hstill

theorem Provides.size_replay (h : Provides queue owing calls)
    : (Call.replay queue calls).size + calls.countP (·.2.takes) =
      queue.size + (calls.flatMap (·.2.offered)).length := by
  induction calls generalizing queue owing with
  | nil => rfl
  | cons first calls ih =>
    rcases h.step with ⟨⟨still, hstill⟩, hsize, hpops⟩
    have hrest := ih hstill
    rw [List.countP_cons, List.flatMap_cons, List.length_append]
    change (Call.replay (first.2.on queue).2 calls).size + _ = _
    omega

theorem provides_of_cycles (queue : DiveQueue)
    (hcycles : ∀ client, Call.Cycles false (Call.ofClient client calls))
    : Provides queue ∅ calls := by
  refine ⟨Nat.zero_le _, ?_⟩
  intro client
  rw [decide_eq_false (Finset.notMem_empty client)]
  exact hcycles client

end DiveQueue

namespace Pool

/--
Each group of handles behaves like one queue that nobody shares, whoever uses the handles and in whatever
order: all handles of the group see the queue that the calls of the group lead to, its replies are those
of that queue, and requests to other groups do not change it. So if from some time on all clients of a
group add a valid batch before they take a node, then no such client comes away without a node, and the
queue then holds what has been added and not yet taken.
-/
theorem plain_of_turns {β : Type} (start : DiveQueue) (turns : List (Turn DiveQueue β))
    : (after start turns).view = (Group.formed start turns).map (Group.plain start turns) ∧
      (∀ request, ((after start turns).serve request).1 = Group.reply start turns request) ∧
      ∀ handle group, (Group.formed start turns)[handle]? = some group →
        (∀ request : Request DiveQueue β,
          request.callTo (Group.formed start turns) group.origin = none →
            ((after start turns).serve request).2.queue? handle = (after start turns).queue? handle) ∧
        ∀ later, (∀ client, Call.Cycles false (Call.ofClient client (group.callsSince start turns later))) →
          (∀ before turn rest, later = before ++ turn :: rest →
            turn.request.callTo (Group.formed start (turns ++ before)) group.origin = some (.perform .pop) →
              ∃ node, ((after start (turns ++ before)).serve turn.request).1 =
                some (.answered (.popped (.ok node)))) ∧
          ∃ first last, (after start turns).queue? handle = some first ∧
            (after start (turns ++ later)).queue? handle = some last ∧
            last.size + (group.callsSince start turns later).countP (·.2.takes) =
              first.size + ((group.callsSince start turns later).flatMap (·.2.offered)).length := by
  refine ⟨(separates_after start turns).view_eq, (separates_after start turns).serve_fst, ?_⟩
  intro handle group hgroup
  refine ⟨fun request hcall => queue?_serve hgroup hcall, fun later hcycles => ⟨?_, ?_⟩⟩
  . intro before turn rest hlater hcall
    have hkept : (Group.formed start (turns ++ before))[handle]? = some group := by
      rw [Group.formed_append]
      exact Group.getElem?_after hgroup before
    rw [(separates_after start (turns ++ before)).serve_of_callTo hkept hcall, Group.plain_append]
    have hprovides := DiveQueue.provides_of_cycles (Group.plain start turns group) hcycles
    rw [Group.callsSince, hlater, Group.calls_append, Group.calls, ← Group.formed_append, hcall] at hprovides
    rcases hprovides.replay with ⟨still, hstill⟩
    rcases hstill.step.right.right rfl with ⟨node, hnode⟩
    exact ⟨node, congrArg some hnode⟩
  . refine ⟨Group.plain start turns group, Group.plain start (turns ++ later) group, ?_, ?_, ?_⟩
    . rw [(separates_after start turns).queue?_eq, hgroup]
      rfl
    . rw [(separates_after start (turns ++ later)).queue?_eq, Group.formed_append,
        Group.getElem?_after hgroup]
      rfl
    . rw [Group.plain_append]
      exact (DiveQueue.provides_of_cycles _ hcycles).size_replay

def opening : List (Turn DiveQueue Unit) :=
  [{ client := 0, request := .share 0 }, { client := 2, request := .fresh (.new {}) }]

def pushOf (bounds : List Float) : Call DiveQueue Unit :=
  .perform <| .push (.initial [1.0] [0]) <| bounds.map fun bound =>
    Node.below none { channel := none, depth := 0, bound, switches := [0] }

def meeting : List (Turn DiveQueue Unit) := [
  { client := 0, request := .ask 0 (pushOf [2.0]) },
  { client := 1, request := .ask 1 (pushOf [1.0, 3.0]) },
  { client := 1, request := .ask 0 .size },
  { client := 1, request := .ask 1 (.perform .pop) },
  { client := 2, request := .ask 2 (.perform .clear) },
  { client := 0, request := .ask 1 (.perform .pop) }
]

theorem plain_of_turns_meeting
    : ((after (.new {}) opening).serve (.ask 2 (pushOf [1.0]))).2.queue? 1 =
        (after (.new {}) opening).queue? 1 ∧
      (∃ node, ((after (.new {}) (opening ++ meeting.take 3)).serve (.ask 1 (.perform .pop))).1 =
        some (.answered (.popped (.ok node)) : Reply Unit)) ∧
      ∃ last, (after (.new {}) (opening ++ meeting)).queue? 1 = some last ∧ last.size = 1 := by
  have hgroup : (Group.formed (.new {}) opening)[1]? = some { origin := 0, queue := .new {} } := rfl
  have hcalls : Group.callsSince (.new {}) opening meeting { origin := 0, queue := .new {} } =
    [(0, pushOf [2.0]), (1, pushOf [1.0, 3.0]), (1, .size), (1, .perform .pop), (0, .perform .pop)] := rfl
  have hcycles : ∀ client, Call.Cycles false (Call.ofClient client
      (Group.callsSince (.new {}) opening meeting { origin := 0, queue := .new {} })) := by
    rw [hcalls]
    intro client
    match client with
    | 0 => exact .adds (List.cons_ne_nil _ _) rfl (.takes .stops)
    | 1 => exact .adds (List.cons_ne_nil _ _) rfl (.looks trivial (.takes .stops))
    | _ + 2 => exact .stops
  rcases plain_of_turns (.new {}) opening with ⟨hview, hreplies, hgroups⟩
  rcases hgroups 1 _ hgroup with ⟨hframe, hlater⟩
  rcases hlater meeting hcycles with ⟨hpops, first, last, hfirst, hlast, hsize⟩
  rw [← getElem?_view, hview] at hfirst
  cases hfirst
  exact ⟨hframe _ rfl, hpops (meeting.take 3) _ (meeting.drop 4) rfl rfl, last, hlast,
    Nat.add_right_cancel hsize⟩

end Pool

end SwitchSearch
