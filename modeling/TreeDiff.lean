import TreeDiff.Alignment
import TreeDiff.Alignment.Anchor
import TreeDiff.Alignment.Choice
import TreeDiff.Alignment.Conservation
import TreeDiff.Arena
import TreeDiff.Arena.Laws
import TreeDiff.Arena.Reading
import TreeDiff.Diff
import TreeDiff.Digest
import TreeDiff.Dump
import TreeDiff.Dump.Instances
import TreeDiff.Fingerprint
import TreeDiff.Forest
import TreeDiff.Forest.Tree
import TreeDiff.Form
import TreeDiff.Goal
import TreeDiff.Limits
import TreeDiff.Machine
import TreeDiff.Machine.Run
import TreeDiff.Plan
import TreeDiff.Proofs.Accounting
import TreeDiff.Proofs.Anchors
import TreeDiff.Proofs.Blindness
import TreeDiff.Proofs.Building
import TreeDiff.Proofs.Chains
import TreeDiff.Proofs.Charges
import TreeDiff.Proofs.Choice
import TreeDiff.Proofs.Comparison
import TreeDiff.Proofs.Completion
import TreeDiff.Proofs.Construction
import TreeDiff.Proofs.Coverage
import TreeDiff.Proofs.Edits
import TreeDiff.Proofs.Effort
import TreeDiff.Proofs.Equality
import TreeDiff.Proofs.Framing
import TreeDiff.Proofs.Gaps
import TreeDiff.Proofs.Grammar
import TreeDiff.Proofs.Grams
import TreeDiff.Proofs.Handles
import TreeDiff.Proofs.Histories
import TreeDiff.Proofs.Identity
import TreeDiff.Proofs.Insertions
import TreeDiff.Proofs.Links
import TreeDiff.Proofs.Marking
import TreeDiff.Proofs.Matching
import TreeDiff.Proofs.Metric
import TreeDiff.Proofs.Nodes
import TreeDiff.Proofs.Partners
import TreeDiff.Proofs.Pending
import TreeDiff.Proofs.Planting
import TreeDiff.Proofs.Positions
import TreeDiff.Proofs.Reach
import TreeDiff.Proofs.Reachable
import TreeDiff.Proofs.Reading
import TreeDiff.Proofs.Relabelling
import TreeDiff.Proofs.Saturation
import TreeDiff.Proofs.Shortlist
import TreeDiff.Proofs.Sides
import TreeDiff.Proofs.Sizes
import TreeDiff.Proofs.Slices
import TreeDiff.Proofs.Slots
import TreeDiff.Proofs.Summaries
import TreeDiff.Proofs.Surroundings
import TreeDiff.Proofs.Table
import TreeDiff.Proofs.Ties
import TreeDiff.Proofs.Tour
import TreeDiff.Proofs.Traces
import TreeDiff.Proofs.Turns
import TreeDiff.Text.Decimal
import TreeDiff.Text.Quoted
import TreeDiff.Tree
import TreeDiff.Tree.Estimate
import TreeDiff.Tree.Gram
