/-!
This module contains the rules by which a search is stopped before it is through.
-/

namespace SwitchSearch

/--
Whether a search has to stop. The search asks before each node; the argument counts the questions
that have been asked before.
-/
abbrev StopRule := Nat → Bool

namespace StopRule

def never : StopRule :=
  fun _ => false

def after (count : Nat) : StopRule :=
  fun asked => count ≤ asked

def atQuestions (questions : List Nat) : StopRule :=
  fun asked => questions.contains asked

end StopRule

structure TimeLimit where
  milliseconds : Nat

namespace TimeLimit

def isReached (limit : TimeLimit) (elapsed : Nat) : Bool :=
  limit.milliseconds ≤ elapsed

def stopRule (limit : TimeLimit) (clock : Nat → Nat) : StopRule :=
  fun asked => limit.isReached (clock asked)

end TimeLimit

end SwitchSearch
