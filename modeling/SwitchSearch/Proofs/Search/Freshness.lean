import SwitchSearch.Proofs.DiveQueue.Departure
import SwitchSearch.Proofs.Search.Visits

/-!
This module contains the proof that the keys of deferred nodes never go stale: during a run nothing that
they depend on changes. So the node that a search falls back on when a dive has ended is the best of all
nodes it still holds, as of now.
-/

namespace SwitchSearch

def Node.ComesFirst (key : Node → Float) (node : Node) (nodes : List Node) : Prop :=
  ∀ other ∈ nodes, key node ≤ key other ∧
    ((key node == key other) = true → other.maxSwitches ≤ node.maxSwitches)

namespace DiveQueue

variable {problem : Problem} {rule : KeyRule} {queue rest : DiveQueue}

/-- All keys are up to date, whatever upper bound the search has got to. -/
structure UpToDate (problem : Problem) (rule : KeyRule) (queue : DiveQueue) : Prop where
  rule_eq : queue.rule = rule
  key_eq : ∀ upperBound, ∀ entry ∈ queue.deferred.toList,
    entry.key = rule.key entry.node (problem.context upperBound)

theorem upToDate_clear (problem : Problem) (queue : DiveQueue)
    : UpToDate problem queue.rule queue.clear :=
  ⟨rfl, fun _ => List.forall_mem_nil _⟩

theorem UpToDate.perform (h : UpToDate problem rule queue) (operation : Operation)
    (hcontext : ∀ context batch, operation = .push context batch →
      ∃ upperBound, context = problem.context upperBound)
    : UpToDate problem rule (Agenda.perform queue operation).2 := by
  refine ⟨(rule_perform queue operation).trans h.rule_eq, ?_⟩
  intro upperBound entry hmem
  rcases mem_deferred_perform hmem with hold | ⟨context, batch, hpush, hne, hok, hnode, hkey⟩
  . exact h.key_eq upperBound entry hold
  . rcases hcontext context batch hpush with ⟨earlier, heq⟩
    -- a key depends on the durations and the budgets only, and these belong to the problem
    rw [hkey, h.rule_eq, heq]
    rfl

theorem Numeric.of_pop (h : queue.Numeric) : queue.pop.2.Numeric := by
  intro entry hmem
  have hmem : entry ∈ (Agenda.perform queue .pop).2.deferred.toList := hmem
  rcases mem_deferred_perform hmem with hold | ⟨context, batch, hpush, hrest⟩
  . exact h entry hold
  . contradiction

theorem numeric_of_all (h : queue.deferred.toList.all (!·.key.isNaN) = true) : queue.Numeric := by
  intro entry hmem
  simpa using List.all_eq_true.mp h entry hmem

theorem exists_pop_of_any {test : Node → Bool} (h : queue.pop.1.toOption.any test = true)
    : ∃ node rest, Agenda.pop queue = (.ok node, rest) ∧ test node = true := by
  change ∃ node rest, queue.pop = (.ok node, rest) ∧ test node = true
  cases hpop : queue.pop with
  | mk result rest =>
    rw [hpop] at h
    cases result with
    | error error => contradiction
    | ok node => exact ⟨node, rest, rfl, h⟩

theorem precedes_of_pop? {entry : Deferred} {deferred : Heap Deferred Deferred.rank}
    (hnumeric : queue.Numeric) (hordered : queue.deferred.IsOrdered)
    (hpop : queue.deferred.pop? = some (entry, deferred))
    : ∀ other ∈ queue.deferred.toList, Precedes entry other := by
  have hperm := Heap.toList_perm_of_pop? hpop
  have hentry := hnumeric entry (hperm.mem_iff.mpr List.mem_cons_self)
  intro other hmem
  have hother := hnumeric other hmem
  cases List.mem_cons.mp (hperm.mem_iff.mp hmem) with
  | inl hself =>
    rw [hself]
    exact ⟨Binary64.le_refl hentry, fun _ => UInt32.le_refl _⟩
  | inr hrest =>
    have hrank := (hordered.pop? Deferred.totalOn_rank hnumeric hpop).right other hrest
    exact precedes_of_rank hentry hother hrank

theorem comesFirst_of_pop {node : Node} {key : Node → Float} (hnumeric : queue.Numeric)
    (hordered : queue.deferred.IsOrdered)
    (hkeys : ∀ entry ∈ queue.deferred.toList, entry.key = key entry.node)
    (hpruned : queue.pruned = []) (hdive : queue.dive = none) (hpop : queue.pop = (.ok node, rest))
    : node.ComesFirst key queue.nodes := by
  have hnodes : queue.nodes = queue.deferred.toList.map (·.node) := by
    unfold nodes
    rw [hpruned, hdive]
    rfl
  have hpopped : Popped queue (.ok node, rest) := hpop ▸ popped_pop queue
  cases hpopped with
  | pruned node pruned hsome =>
    rw [hpruned] at hsome
    contradiction
  | dive node hnone hsome =>
    rw [hdive] at hsome
    contradiction
  | deferred entry deferred hnone hended hentry =>
    have hmem := (Heap.toList_perm_of_pop? hentry).mem_iff.mpr List.mem_cons_self
    have hprecedes := precedes_of_pop? hnumeric hordered hentry
    rw [hnodes]
    intro other hother
    rcases List.mem_map.mp hother with ⟨deferral, hdeferral, heq⟩
    rw [← heq, ← hkeys entry hmem, ← hkeys deferral hdeferral]
    exact hprecedes deferral hdeferral

end DiveQueue

namespace Search

theorem Round.agenda_eq {α : Type} [Agenda α] {problem : Problem} {stop : StopRule}
    {search next : Search α} (hround : Round problem stop search (.running next))
    : next.agenda = (Agenda.perform search.agenda .pop).2 ∨
      ∃ children, next.agenda = (Agenda.perform (Agenda.perform search.agenda .pop).2
        (.push (problem.context search.upperBound) children)).2 := by
  cases hround with
  | discarded node agenda hgo hpop hcut => exact .inl (congrArg Prod.snd hpop).symm
  | recorded node agenda hgo hpop hcut hleaf => exact .inl (congrArg Prod.snd hpop).symm
  | expanded node agenda rest children hgo hpop hcut hleaf hbranch hpush =>
    refine .inr ⟨children, ?_⟩
    have hagenda : agenda = (Agenda.perform search.agenda .pop).2 := (congrArg Prod.snd hpop).symm
    rw [← hagenda]
    exact (congrArg Prod.snd hpush).symm

variable {problem : Problem} {stop : StopRule} {first search : Search DiveQueue}

/--
The states before the rounds of a run, provided that no key has been NaN since the queue last had no
deferred node. It is not enough that none is now, since a key that is NaN may leave a disorder behind.
-/
inductive VisitsNumeric (problem : Problem) (stop : StopRule) (first : Search DiveQueue)
    : Search DiveQueue → Prop where
  | empty {search : Search DiveQueue} (hvisits : Visits problem stop first search)
      (hnil : search.agenda.deferred.toList = [])
    : VisitsNumeric problem stop first search
  | stepped {search next : Search DiveQueue} (hvisits : VisitsNumeric problem stop first search)
      (hstep : search.step problem stop = .running next) (hnumeric : next.agenda.Numeric)
      : VisitsNumeric problem stop first next

def stateAfter (problem : Problem) (stop : StopRule) (test : Search DiveQueue → Bool)
    : (rounds : Nat) → Progress DiveQueue → Option (Search DiveQueue)
  | _, .ended _ _ => none
  | 0, .running search => if test search then some search else none
  | rounds + 1, .running search =>
    if test search then stateAfter problem stop test rounds (search.step problem stop) else none

theorem of_stateAfter {visited : Search DiveQueue → Prop} {test : Search DiveQueue → Bool}
    (hstep : ∀ current next, visited current → current.step problem stop = .running next →
      test next = true → visited next)
    {rounds : Nat} {progress : Progress DiveQueue}
    (hprogress : ∀ current, progress = .running current → test current = true → visited current)
    (h : stateAfter problem stop test rounds progress = some search)
    : visited search := by
  induction rounds generalizing progress with
  | zero =>
    cases progress with
    | running current =>
      rcases Option.ite_none_right_eq_some.mp h with ⟨htest, heq⟩
      rw [← Option.some.inj heq]
      exact hprogress current rfl htest
    | ended outcome current => contradiction
  | succ rounds ih =>
    cases progress with
    | running current =>
      rcases Option.ite_none_right_eq_some.mp h with ⟨htest, hrest⟩
      exact ih (hstep current · (hprogress current rfl htest)) hrest
    | ended outcome current => contradiction

end Search

/-- A problem in which one child of the root, and no other node that is deferred, has NaN for its key. -/
def Problem.stray : Problem where
  root := Node.root 1 0.0
  durations := 1.0 :: DiveQueue.overfull.durations
  budgets := DiveQueue.overfull.budgets
  branch node :=
    let labels :=
      if node.depth = 0 then [(0.0, 0), (1.0, 1)]
      else if node.depth = 1 && node.bound < 1.0 then
        [(0.5, 0), (2.0, 0), (5.0, 3), (1.0, 3), (3.0, 0), (4.0, 2)]
      else []
    .ok <| labels.map fun (bound, count) =>
      Node.below (some node) { channel := some 0, depth := node.depth + 1, bound, switches := [count] }

namespace Search

/-- No key held is NaN, and the next round takes the node with key 3 rather than that with key 2. -/
theorem not_comesFirst_stray
    : ({ weight := some (Float.ofBits 0x7e70000000000000) } : KeyRule.Draft).build = .ok DiveQueue.steep ∧
      ∃ (search : Search DiveQueue) (node : Node) (rest : DiveQueue),
        Visits .stray .never { agenda := .new DiveQueue.steep } search ∧ search.agenda.Numeric ∧
        search.agenda.pruned = [] ∧ search.agenda.dive = none ∧
        search.agenda.nodes.map (·.bound) = [3.0, 2.0, 4.0, 5.0] ∧
        Agenda.pop search.agenda = (.ok node, rest) ∧ (node.bound == 3.0) = true ∧
        ¬node.ComesFirst (search.agenda.rule.key · (Problem.stray.context search.upperBound))
          search.agenda.nodes := by
  refine ⟨rfl, ?_⟩
  have hstate : (stateAfter .stray .never (fun _ => true) 5
      (start .stray { agenda := DiveQueue.new DiveQueue.steep })).any (fun search =>
        search.agenda.deferred.toList.all (!·.key.isNaN) && search.agenda.pruned.isEmpty &&
        search.agenda.dive.isNone && search.agenda.nodes.map (·.bound) = [3.0, 2.0, 4.0, 5.0] &&
        search.agenda.pop.1.toOption.any fun node => node.bound == 3.0 &&
          search.agenda.nodes.any fun other =>
            search.agenda.rule.key other (Problem.stray.context search.upperBound) <
              search.agenda.rule.key node (Problem.stray.context search.upperBound)) = true := by
    decide +kernel
  rcases Option.any_eq_true _ _ |>.mp hstate with ⟨search, hsearch, htests⟩
  simp only [Bool.and_eq_true, List.isEmpty_iff, Option.isNone_iff_eq_none, decide_eq_true_eq] at htests
  rcases htests with ⟨⟨⟨⟨hall, hpruned⟩, hdive⟩, hbounds⟩, hnode⟩
  rcases DiveQueue.exists_pop_of_any hnode with ⟨node, rest, hpop, htest⟩
  rw [Bool.and_eq_true, List.any_eq_true] at htest
  rcases htest with ⟨hbound, other, hmem, hlt⟩
  refine ⟨search, node, rest, ?_, DiveQueue.numeric_of_all hall, hpruned, hdive, hbounds,
    hpop, hbound, ?_⟩
  . exact of_stateAfter (fun _ _ hvisits hstep _ => .stepped hvisits hstep)
      (fun _ hstart _ => .started hstart) hsearch
  . intro hfirst
    have hlt := Binary64.lt_of_lt_of_le (of_decide_eq_true hlt) (hfirst other hmem).left
    exact Binary64.lt_irrefl _ hlt

variable {problem : Problem} {stop : StopRule} {first search : Search DiveQueue}

namespace VisitsNumeric

theorem visits (h : VisitsNumeric problem stop first search) : Visits problem stop first search := by
  induction h with
  | empty hvisits hnil => exact hvisits
  | stepped hvisits hstep hnumeric ih => exact .stepped ih hstep

theorem numeric (h : VisitsNumeric problem stop first search) : search.agenda.Numeric := by
  cases h with
  | empty hvisits hnil => exact DiveQueue.numeric_of_toList_eq_nil hnil
  | stepped hvisits hstep hnumeric => exact hnumeric

end VisitsNumeric

theorem agenda_of_start (hstart : first.start problem = .running search)
    : search.agenda = (Agenda.perform first.agenda.clear
        (.push (problem.context first.upperBound) [problem.root])).2 := by
  rcases started_of_start hstart with ⟨rest, hstarted, hpush⟩
  rw [hstarted]
  exact (congrArg Prod.snd hpush).symm

theorem deferred_of_start (hstart : first.start problem = .running search)
    : search.agenda.deferred.toList = [] := by
  rw [agenda_of_start hstart, List.eq_nil_iff_forall_not_mem]
  intro deferral hmem
  rcases DiveQueue.mem_deferred_perform hmem with hold | ⟨context, batch, hpush, hne, hok, hnode, hkey⟩
  . exact List.not_mem_nil hold
  . cases hpush
    cases hcut : problem.root.isCut first.upperBound <;>
      simp [DiveQueue.deferredNodes, DiveQueue.liveNodes, DiveQueue.clear, DiveQueue.new, hcut,
        Problem.context, DiveQueue.pickDive] at hnode

theorem Visits.upToDate (hvisits : Visits problem stop first search)
    : DiveQueue.UpToDate problem first.agenda.rule search.agenda := by
  induction hvisits with
  | started hstart =>
    rw [agenda_of_start hstart]
    exact (DiveQueue.upToDate_clear problem first.agenda).perform _ fun _ _ heq => by cases heq; exact ⟨_, rfl⟩
  | stepped hvisits hstep ih =>
    have hpop := ih.perform .pop nofun
    rcases (round_of_step hstep).agenda_eq with hagenda | ⟨children, hagenda⟩
    . rw [hagenda]
      exact hpop
    . rw [hagenda]
      exact hpop.perform _ fun _ _ heq => by cases heq; exact ⟨_, rfl⟩

theorem VisitsNumeric.isOrdered (hvisits : VisitsNumeric problem stop first search)
    : search.agenda.deferred.IsOrdered := by
  induction hvisits with
  | empty hvisits hnil => exact Heap.isOrdered_of_toList_eq_nil hnil
  | stepped hvisits hstep hnumeric ih =>
    have hrest := hvisits.numeric.of_pop
    have hpop := DiveQueue.isOrdered_perform .pop hvisits.numeric hrest ih
    rcases (round_of_step hstep).agenda_eq with hagenda | ⟨children, hagenda⟩
    . rw [hagenda]
      exact hpop
    . rw [hagenda] at hnumeric ⊢
      exact DiveQueue.isOrdered_perform _ hrest hnumeric hpop

/--
Before each round of a run, every deferred node is still filed under the key that it has now. As long as
no key has been NaN since there was no deferred node, a round that takes a deferred node takes the one
that comes first by the keys that all nodes held have now.
-/
theorem comesFirst_of_visits (hvisits : Visits problem stop first search)
    : search.agenda.rule = first.agenda.rule ∧
      (∀ entry ∈ search.agenda.deferred.toList,
        entry.key = search.agenda.rule.key entry.node (problem.context search.upperBound)) ∧
      ∀ (node : Node) (rest : DiveQueue), VisitsNumeric problem stop first search →
        search.agenda.pruned = [] → search.agenda.dive = none →
        Agenda.pop search.agenda = (.ok node, rest) →
        node.ComesFirst (search.agenda.rule.key · (problem.context search.upperBound))
          search.agenda.nodes := by
  have hfresh := hvisits.upToDate
  have hkeys : ∀ entry ∈ search.agenda.deferred.toList,
      entry.key = search.agenda.rule.key entry.node (problem.context search.upperBound) := by
    rw [hfresh.rule_eq]
    exact hfresh.key_eq search.upperBound
  refine ⟨hfresh.rule_eq, hkeys, ?_⟩
  intro node rest hnumeric hpruned hdive hpop
  exact DiveQueue.comesFirst_of_pop hnumeric.numeric hnumeric.isOrdered hkeys hpruned hdive hpop

end Search

def Problem.fan : Problem where
  root := Node.root 1 0.5
  durations := [1.0, 2.0]
  budgets := [1]
  branch node := .ok <|
    (if node.depth = 0 then [(4.0, 1), (2.0, 0), (3.5, 0)] else [(10.0, 0)]).map fun (bound, count) =>
      Node.below (some node) { channel := some 0, depth := node.depth + 1, bound, switches := [count] }

namespace Search

theorem comesFirst_of_visits_fan
    : ∃ (search : Search DiveQueue) (node : Node) (rest : DiveQueue),
        VisitsNumeric .fan .never { agenda := .new {} } search ∧ (search.upperBound == 10.0) = true ∧
        search.agenda.pruned = [] ∧ search.agenda.dive = none ∧ search.agenda.nodes.length = 2 ∧
        Agenda.pop search.agenda = (.ok node, rest) ∧ (node.bound == 3.5) = true ∧
        (∀ entry ∈ search.agenda.deferred.toList,
          entry.key = search.agenda.rule.key entry.node (Problem.fan.context search.upperBound)) ∧
        node.ComesFirst (search.agenda.rule.key · (Problem.fan.context search.upperBound))
          search.agenda.nodes := by
  have hstate : (stateAfter .fan .never (fun search => search.agenda.deferred.toList.all (!·.key.isNaN)) 3
      (start .fan { agenda := DiveQueue.new {} })).any
      (fun search => search.upperBound == 10.0 && search.agenda.pruned.isEmpty &&
        search.agenda.dive.isNone && search.agenda.nodes.length == 2 &&
        search.agenda.pop.1.toOption.any (·.bound == 3.5)) = true := by
    decide +kernel
  rcases Option.any_eq_true _ _ |>.mp hstate with ⟨search, hsearch, htests⟩
  simp only [Bool.and_eq_true, List.isEmpty_iff, Option.isNone_iff_eq_none, beq_iff_eq] at htests
  rcases htests with ⟨⟨⟨⟨hbound, hpruned⟩, hdive⟩, hlength⟩, hnode⟩
  rcases DiveQueue.exists_pop_of_any hnode with ⟨node, rest, hpop, hnode⟩
  have hvisits : VisitsNumeric .fan .never { agenda := .new {} } search :=
    of_stateAfter (fun _ _ hvisits hstep hall => .stepped hvisits hstep (DiveQueue.numeric_of_all hall))
      (fun _ hstart _ => .empty (.started hstart) (deferred_of_start hstart)) hsearch
  refine ⟨search, node, rest, hvisits, hbound, hpruned, hdive, hlength, hpop, hnode, ?_, ?_⟩
  . exact (comesFirst_of_visits hvisits.visits).right.left
  . exact (comesFirst_of_visits hvisits.visits).right.right node rest hvisits hpruned hdive hpop

end Search

end SwitchSearch
