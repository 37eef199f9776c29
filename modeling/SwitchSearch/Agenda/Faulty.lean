import SwitchSearch.Agenda.Basic

/-!
This module contains agendas that break their contract. A search has to report what they answer and
must not rely on the size they claim.
-/

namespace SwitchSearch

/-- An agenda that claims to hold a node and refuses every batch. -/
structure Refusing where

instance : Agenda Refusing where
  size _ := 1
  top _ := .error .empty
  pop agenda := (.error .empty, agenda)
  push agenda _ batch := (.error (.wrongChannels 0 batch.length), agenda)
  clear agenda := agenda

/-- An agenda that claims to hold a node and swallows every batch. -/
structure Hollow where

instance : Agenda Hollow where
  size _ := 1
  top _ := .error .empty
  pop agenda := (.error .empty, agenda)
  push agenda _ _ := (.ok (), agenda)
  clear agenda := agenda

end SwitchSearch
