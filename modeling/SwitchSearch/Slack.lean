/-!
This module contains the slack of a node: how many more switches its tightest channel allows.
-/

namespace SwitchSearch

inductive SlackRule where
  | tightest
  /--
  The least of the differences and zero. As a slack is never negative, this makes every slack zero,
  whatever the node has used.
  -/
  | fromZero
  deriving DecidableEq

namespace SlackRule

/-- What is left of each budget, negative where it is exceeded. Unpaired channels do not count. -/
def differences (budgets used : List UInt32) : List Int :=
  List.zipWith (fun budget count => (budget.toNat : Int) - count.toNat) budgets used

def least (rule : SlackRule) (differences : List Int) : Int :=
  match rule with
  | tightest => differences.min?.getD 0
  | fromZero => differences.foldl min 0

def slack (rule : SlackRule) (budgets used : List UInt32) : UInt32 :=
  UInt32.ofNatClamp (rule.least (differences budgets used)).toNat

end SlackRule

end SwitchSearch
