import SwitchSearch.Agenda.Faulty
import SwitchSearch.DiveQueue.Lemmas
import SwitchSearch.Pool
import SwitchSearch.Problem.Costs
import SwitchSearch.Problem.Graph
import SwitchSearch.Search.Basic
import SwitchSearch.Proofs.CostTable.Optimum
import SwitchSearch.Proofs.DiveQueue.Departure
import SwitchSearch.Proofs.DiveQueue.Keys
import SwitchSearch.Proofs.Search.Incumbent
import SwitchSearch.Proofs.Search.Dive
import SwitchSearch.Proofs.DiveQueue.Lockstep
import SwitchSearch.Proofs.Search.Freshness
import SwitchSearch.Proofs.Search.Interruption
import SwitchSearch.Proofs.Search.Restart
import SwitchSearch.Proofs.DiveQueue.Refusal
import SwitchSearch.Proofs.DiveQueue.Placement
import SwitchSearch.Proofs.Search.Failure
import SwitchSearch.Proofs.Pool.Clients
import SwitchSearch.Proofs.Search.Effort
import SwitchSearch.Proofs.Search.Reckoning
import SwitchSearch.Proofs.Node.Chain
import SwitchSearch.Proofs.KeyRule.Monotone
import SwitchSearch.Proofs.DiveQueue.Agreement
import SwitchSearch.Proofs.Slack.Margins
import SwitchSearch.Proofs.DiveQueue.Ties
