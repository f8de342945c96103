import BehaviorTree.LeafScript
import BehaviorTree.Message
import BehaviorTree.Probe
import BehaviorTree.Submission
import BehaviorTree.YamlText
import BehaviorTree.Proofs.Doubles
import BehaviorTree.Proofs.Reloading
import BehaviorTree.Proofs.ActivePath
import BehaviorTree.Proofs.Courses
import BehaviorTree.Proofs.Flattening
import BehaviorTree.Proofs.Unrolling
import BehaviorTree.Proofs.Duality
import BehaviorTree.Proofs.Console
import BehaviorTree.Proofs.Timekeeping
import BehaviorTree.Proofs.Resumption
import BehaviorTree.Proofs.Chronicle
import BehaviorTree.Proofs.Firings
import BehaviorTree.Proofs.Leftovers
import BehaviorTree.Proofs.Places
import BehaviorTree.Proofs.FreshRuns
import BehaviorTree.Proofs.Omissions
import BehaviorTree.Proofs.RecordOrder
import BehaviorTree.Proofs.Independence
import BehaviorTree.Proofs.Pumping
import BehaviorTree.Proofs.Trimming
import BehaviorTree.Proofs.Takeover
import BehaviorTree.Proofs.LoadedPasses
import BehaviorTree.Proofs.Visits
import BehaviorTree.Proofs.Additions
import BehaviorTree.Proofs.Accounts
import BehaviorTree.Proofs.Renewal
import BehaviorTree.Proofs.SavedParameters
import BehaviorTree.Proofs.StartingOver
import BehaviorTree.Proofs.FloatDocuments
import BehaviorTree.Proofs.MigratedPorts
import BehaviorTree.Proofs.RuleGrammar
import BehaviorTree.Proofs.NumberReading
import BehaviorTree.Proofs.RuleReading
import BehaviorTree.Proofs.WrittenRules
import BehaviorTree.Proofs.Escapes
import BehaviorTree.Proofs.Assignments
import BehaviorTree.Proofs.BoardHistory
import BehaviorTree.Proofs.Resolution
import BehaviorTree.Proofs.Cursors
import BehaviorTree.Proofs.Annals
import BehaviorTree.Proofs.FanningOut
import BehaviorTree.Proofs.SteadyTimers
import BehaviorTree.Proofs.VersionText
import BehaviorTree.Proofs.Catalog
import BehaviorTree.Proofs.LastingRecords
import BehaviorTree.Proofs.Reentry
