import SwitchSearch.Agenda.Plain

/-!
This module contains the contract of agendas: up to order, an agenda is a list of nodes to which a
push adds its batch and from which a pop takes the node on top.
-/

namespace SwitchSearch

class LawfulAgenda (α : Type) [Agenda α] where
  /-- The nodes held, in any order. -/
  nodes : α → List Node
  size_eq : ∀ agenda : α, Agenda.size agenda = (nodes agenda).length
  nodes_clear : ∀ agenda : α, nodes (Agenda.clear agenda) = []
  nodes_push_of_ok : ∀ (agenda : α) (context : Context) (batch : List Node),
    (Agenda.push agenda context batch).1 = .ok () →
      (nodes (Agenda.push agenda context batch).2).Perm (batch ++ nodes agenda)
  nodes_push_of_error : ∀ (agenda : α) (context : Context) (batch : List Node) (e : QueueError),
    (Agenda.push agenda context batch).1 = .error e →
      (nodes (Agenda.push agenda context batch).2).Perm (nodes agenda)
  top_eq_error_iff : ∀ agenda : α, (∃ e, Agenda.top agenda = .error e) ↔ nodes agenda = []
  pop_eq_top : ∀ agenda : α, (Agenda.pop agenda).1 = Agenda.top agenda
  nodes_pop_of_ok : ∀ (agenda : α) (node : Node), (Agenda.pop agenda).1 = .ok node →
    (nodes agenda).Perm (node :: nodes (Agenda.pop agenda).2)
  nodes_pop_of_error : ∀ (agenda : α) (e : QueueError), (Agenda.pop agenda).1 = .error e →
    (nodes (Agenda.pop agenda).2).Perm (nodes agenda)

instance : LawfulAgenda Stack where
  nodes := Stack.nodes
  size_eq _ := rfl
  nodes_clear _ := rfl
  nodes_push_of_ok _ _ _ _ := (List.reverse_perm _).append_right _
  nodes_push_of_error _ _ _ _ h := nomatch h
  top_eq_error_iff := by
    rintro ⟨_ | ⟨node, nodes⟩⟩ <;> simp [Agenda.top, Stack.pop]
  pop_eq_top _ := rfl
  nodes_pop_of_ok := by
    rintro ⟨_ | ⟨node, nodes⟩⟩ <;> simp [Agenda.pop, Stack.pop]
  nodes_pop_of_error := by
    rintro ⟨_ | ⟨node, nodes⟩⟩ <;> simp [Agenda.pop, Stack.pop]

instance : LawfulAgenda Line where
  nodes := Line.nodes
  size_eq _ := rfl
  nodes_clear _ := rfl
  nodes_push_of_ok _ _ _ _ := List.perm_append_comm
  nodes_push_of_error _ _ _ _ h := nomatch h
  top_eq_error_iff := by
    rintro ⟨_ | ⟨node, nodes⟩⟩ <;> simp [Agenda.top, Line.pop]
  pop_eq_top _ := rfl
  nodes_pop_of_ok := by
    rintro ⟨_ | ⟨node, nodes⟩⟩ <;> simp [Agenda.pop, Line.pop]
  nodes_pop_of_error := by
    rintro ⟨_ | ⟨node, nodes⟩⟩ <;> simp [Agenda.pop, Line.pop]

end SwitchSearch
