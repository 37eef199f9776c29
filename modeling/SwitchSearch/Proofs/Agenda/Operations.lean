import SwitchSearch.Agenda.Lawful
import Mathlib.Data.List.Induction

/-!
This module contains sequences of operations on an agenda, and the ledger of the nodes that have come
and gone. The ledger knows the operations and their answers alone, not the agenda.
-/

namespace SwitchSearch

inductive Operation where
  | push (context : Context) (batch : List Node)
  | pop
  | top
  | clear

inductive Answer where
  | pushed (result : Except QueueError Unit)
  | popped (result : Except QueueError Node)
  | shown (result : Except QueueError Node)
  | cleared

/-- The nodes pushed and the nodes popped since the agenda was cleared last, oldest first. -/
structure Ledger where
  pushed : List Node := []
  popped : List Node := []

namespace Ledger

def record (ledger : Ledger) : Operation → Answer → Ledger
  | .push _ batch, .pushed (.ok ()) => { ledger with pushed := ledger.pushed ++ batch }
  | .pop, .popped (.ok node) => { ledger with popped := ledger.popped ++ [node] }
  | .clear, _ => {}
  | _, _ => ledger

end Ledger

namespace Agenda

variable {α : Type} [Agenda α]

def perform (agenda : α) : Operation → Answer × α
  | .push context batch =>
    let (result, agenda) := push agenda context batch
    (.pushed result, agenda)
  | .pop =>
    let (result, agenda) := pop agenda
    (.popped result, agenda)
  | .top => (.shown (top agenda), agenda)
  | .clear => (.cleared, clear agenda)

def after (agenda : α) (operations : List Operation) : α :=
  operations.foldl (fun agenda operation => (perform agenda operation).2) agenda

def answers (agenda : α) : List Operation → List Answer
  | [] => []
  | operation :: operations =>
    let (answer, agenda) := perform agenda operation
    answer :: answers agenda operations

def ledger (agenda : α) (operations : List Operation) : Ledger :=
  (operations.zip (answers agenda operations)).foldl
    (fun ledger (operation, answer) => ledger.record operation answer) {}

@[simp]
theorem after_nil (agenda : α) : after agenda [] = agenda := rfl

theorem after_append (agenda : α) (first second : List Operation)
    : after agenda (first ++ second) = after (after agenda first) second :=
  List.foldl_append

theorem after_concat (agenda : α) (operations : List Operation) (last : Operation)
    : after agenda (operations ++ [last]) = (perform (after agenda operations) last).2 :=
  after_append agenda operations [last]

@[simp]
theorem length_answers (agenda : α) (operations : List Operation)
    : (answers agenda operations).length = operations.length := by
  induction operations generalizing agenda with
  | nil => rfl
  | cons operation operations ih => simp [answers, ih]

theorem answers_concat (agenda : α) (operations : List Operation) (last : Operation)
    : answers agenda (operations ++ [last]) =
      answers agenda operations ++ [(perform (after agenda operations) last).1] := by
  induction operations generalizing agenda with
  | nil => rfl
  | cons operation operations ih =>
    simp only [List.cons_append, answers, ih]
    rfl

theorem ledger_concat (agenda : α) (operations : List Operation) (last : Operation)
    : ledger agenda (operations ++ [last]) =
      (ledger agenda operations).record last (perform (after agenda operations) last).1 := by
  unfold ledger
  rw [answers_concat, List.zip_append (length_answers agenda operations).symm, List.foldl_append]
  rfl

variable [LawfulAgenda α]

theorem perform_balanced {agenda : α} {ledger : Ledger}
    (h : (LawfulAgenda.nodes agenda ++ ledger.popped).Perm ledger.pushed) (operation : Operation)
    : (LawfulAgenda.nodes (perform agenda operation).2 ++
        (ledger.record operation (perform agenda operation).1).popped).Perm
      (ledger.record operation (perform agenda operation).1).pushed := by
  cases operation with
  | push context batch =>
    unfold perform
    dsimp only
    cases hpush : (push agenda context batch).1 with
    | ok =>
      have hperm := LawfulAgenda.nodes_push_of_ok agenda context batch hpush
      refine (hperm.append_right _).trans ?_
      rw [List.append_assoc]
      exact (h.append_left batch).trans List.perm_append_comm
    | error error =>
      have hperm := LawfulAgenda.nodes_push_of_error agenda context batch error hpush
      exact (hperm.append_right _).trans h
  | pop =>
    unfold perform
    dsimp only
    cases hpop : (pop agenda).1 with
    | ok node =>
      have hperm := LawfulAgenda.nodes_pop_of_ok agenda node hpop
      refine .trans ?_ ((hperm.symm.append_right _).trans h)
      change (_ ++ (ledger.popped ++ [node])).Perm _
      rw [← List.append_assoc]
      exact List.perm_append_singleton _ _
    | error error =>
      have hperm := LawfulAgenda.nodes_pop_of_error agenda error hpop
      exact (hperm.append_right _).trans h
  | top => exact h
  | clear =>
    unfold perform
    dsimp only
    rw [LawfulAgenda.nodes_clear]
    exact .refl _

theorem nodes_after_perm (agenda : α) (hempty : LawfulAgenda.nodes agenda = [])
    (operations : List Operation)
    : (LawfulAgenda.nodes (after agenda operations) ++ (ledger agenda operations).popped).Perm
      (ledger agenda operations).pushed := by
  induction operations using List.reverseRecOn with
  | nil =>
    rw [after_nil, hempty]
    exact .refl _
  | append_singleton operations last ih =>
    rw [after_concat, ledger_concat]
    exact perform_balanced ih last

end Agenda

end SwitchSearch
