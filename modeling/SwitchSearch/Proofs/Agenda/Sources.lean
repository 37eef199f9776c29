import SwitchSearch.Proofs.Agenda.Operations

/-!
This module contains the least that a search needs of an agenda: no node appears out of thin air.
-/

namespace SwitchSearch

/-- An agenda that hands back only nodes that were pushed, accepted or not, since it was cleared. -/
class SourcedAgenda (α : Type) [Agenda α] : Prop where
  pushed : ∀ (agenda : α) (operations : List Operation) (node : Node),
    Agenda.top (Agenda.after (Agenda.clear agenda) operations) = .ok node ∨
      (Agenda.pop (Agenda.after (Agenda.clear agenda) operations)).1 = .ok node →
    ∃ context batch, .push context batch ∈ operations ∧ node ∈ batch

namespace Agenda

variable {α : Type} [Agenda α]

theorem mem_batch_of_mem_ledger {agenda : α} {operations : List Operation} {node : Node}
    (h : node ∈ (ledger agenda operations).pushed)
    : ∃ context batch, .push context batch ∈ operations ∧ node ∈ batch := by
  induction operations using List.reverseRecOn with
  | nil => exact absurd h List.not_mem_nil
  | append_singleton operations last ih =>
    have hearlier : node ∈ (ledger agenda operations).pushed →
        ∃ context batch, .push context batch ∈ operations ++ [last] ∧ node ∈ batch := by
      intro hmem
      rcases ih hmem with ⟨context, batch, hpush, hbatch⟩
      exact ⟨context, batch, List.mem_append_left _ hpush, hbatch⟩
    rw [ledger_concat] at h
    unfold Ledger.record at h
    split at h
    . next context batch heq =>
      cases List.mem_append.mp h with
      | inl hmem => exact hearlier hmem
      | inr hmem => exact ⟨context, batch, List.mem_append_right _ (List.mem_singleton_self _), hmem⟩
    . exact hearlier h
    . exact absurd h List.not_mem_nil
    . exact hearlier h

variable [LawfulAgenda α]

instance : SourcedAgenda α where
  pushed agenda operations node h := by
    have hpop : (pop (after (clear agenda) operations)).1 = .ok node := by
      rw [LawfulAgenda.pop_eq_top]
      rwa [LawfulAgenda.pop_eq_top, or_self] at h
    have hperm := LawfulAgenda.nodes_pop_of_ok _ node hpop
    have hledger := nodes_after_perm (clear agenda) (LawfulAgenda.nodes_clear agenda) operations
    have hmem := hperm.mem_iff.mpr List.mem_cons_self
    exact mem_batch_of_mem_ledger (hledger.mem_iff.mp (List.mem_append_left _ hmem))

end Agenda

end SwitchSearch
