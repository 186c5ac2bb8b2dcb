import TangledGraph.CommandLine.Directory
import TangledGraph.Main
import TangledGraph.Proofs.Graph.History
import TangledGraph.Proofs.Training.Decisions
import TangledGraph.Proofs.Graph.Progress
import TangledGraph.Proofs.Random.Safety
import TangledGraph.Proofs.Training.Survival
import TangledGraph.Proofs.Machine.Variation
import TangledGraph.Proofs.Graph.Maintenance
import TangledGraph.Proofs.Graph.Reshaping
import TangledGraph.Proofs.Graph.Bidding
import TangledGraph.Proofs.Graph.Course
import TangledGraph.Proofs.Machine.Memoryless
import TangledGraph.Proofs.Scoring.Matrix
import TangledGraph.Proofs.Training.Outcomes
import TangledGraph.Proofs.Training.Progress
import TangledGraph.Proofs.Number.Rounding
import TangledGraph.Proofs.Training.Beginning
import TangledGraph.Proofs.Training.Gap
import TangledGraph.Proofs.Training.Refusal
import TangledGraph.Proofs.Training.Quota
import TangledGraph.Proofs.Training.Replenishment
import TangledGraph.Proofs.Graph.Stored
import TangledGraph.Proofs.Settings.Stored
import TangledGraph.Proofs.Training.Stored
import TangledGraph.Proofs.Graph.Presence
import TangledGraph.Proofs.Training.Lineage
import TangledGraph.Proofs.Training.RoundTrip
import TangledGraph.Proofs.Training.Descent
import TangledGraph.Proofs.Training.Finiteness
import TangledGraph.Proofs.Graph.Restoration
import TangledGraph.Proofs.Random.Possibility
import TangledGraph.Proofs.Machine.Alteration
import TangledGraph.Proofs.Graph.Liveness
import TangledGraph.Proofs.Training.Passage
import TangledGraph.Proofs.Mimicry
import TangledGraph.Proofs.Graph.Looseness
import TangledGraph.Proofs.Graph.Imitation
import TangledGraph.Proofs.Training.Endurance
import TangledGraph.Proofs.Training.Resumption
import TangledGraph.Proofs.Graph.Renewal
import TangledGraph.Proofs.Training.Identities
import TangledGraph.Proofs.Training.Capacity
import TangledGraph.Proofs.Scoring.Champions
import TangledGraph.Proofs.Training.Elitism
import TangledGraph.Proofs.Training.Recording
import TangledGraph.Proofs.Training.Interleaving
import TangledGraph.Proofs.Graph.Frame
import TangledGraph.Proofs.Graph.Forgetting
import TangledGraph.Proofs.Machine.Saturation
import TangledGraph.Proofs.Machine.Bounds
import TangledGraph.Proofs.Training.Instructions
import TangledGraph.Proofs.Graph.Dissolution
import TangledGraph.Proofs.Graph.Census
import TangledGraph.Proofs.Graph.Merits
import TangledGraph.Proofs.Training.Culling
import TangledGraph.Proofs.Training.Selection
import TangledGraph.Proofs.Training.Accounting
import TangledGraph.Proofs.Training.Intake
import TangledGraph.Proofs.Training.Rollover
import TangledGraph.Proofs.Training.Registry
import TangledGraph.Proofs.Scoring.Lexicase
import TangledGraph.Proofs.Scoring.Normalization
import TangledGraph.Proofs.Training.Seeding
import TangledGraph.Proofs.Machine.Rows
import TangledGraph.Proofs.Graph.Turnover
import TangledGraph.Proofs.Training.Handout
import TangledGraph.Proofs.Decimal.Digits
import TangledGraph.Proofs.Text.Reading
import TangledGraph.Proofs.Toml.Strings
import TangledGraph.Proofs.Toml.Numbers
import TangledGraph.Proofs.Toml.Values
import TangledGraph.Proofs.Toml.Keys
import TangledGraph.Proofs.Toml.Spine
import TangledGraph.Proofs.Toml.Tables
import TangledGraph.Proofs.Decimal.Shortest
import TangledGraph.Proofs.Decimal.Layout
import TangledGraph.Proofs.Settings.Layers
import TangledGraph.Proofs.Settings.Saved
import TangledGraph.Proofs.Settings.Keeping
