import LayerNet.CommandLine
import LayerNet.Document.Folder
import LayerNet.Graph.Duplicate
import LayerNet.Main
import LayerNet.Proofs.Flow
import LayerNet.Proofs.Edges
import LayerNet.Proofs.History
import LayerNet.Proofs.Capture
import LayerNet.Proofs.Soundness
import LayerNet.Proofs.Forest
import LayerNet.Proofs.Runs
import LayerNet.Proofs.Accounting
import LayerNet.Proofs.Chains
import LayerNet.Proofs.Rounds
import LayerNet.Proofs.Faithful
import LayerNet.Proofs.Placement
import LayerNet.Proofs.Kinds
import LayerNet.Proofs.Circles
import LayerNet.Proofs.Terms
import LayerNet.Proofs.Drawing
import LayerNet.Proofs.Contraction
import LayerNet.Proofs.Acceptance
import LayerNet.Proofs.TreeForm
import LayerNet.Proofs.Lawful
import LayerNet.Proofs.Legality
import LayerNet.Proofs.Likeness
import LayerNet.Proofs.RoundTrip
import LayerNet.Proofs.Rewiring
import LayerNet.Proofs.Rebuilding
import LayerNet.Proofs.Sorting
import LayerNet.Proofs.Joining
import LayerNet.Proofs.Parts
import LayerNet.Proofs.NormalForm
import LayerNet.Proofs.Creations
import LayerNet.Proofs.Building
import LayerNet.Proofs.Logging
import LayerNet.Proofs.Interruption
import LayerNet.Proofs.Numbering
import LayerNet.Proofs.Footprint
import LayerNet.Proofs.Specification
import LayerNet.Proofs.Passage
import LayerNet.Proofs.Resemblance
import LayerNet.Proofs.Redrawing
import LayerNet.Proofs.Division
import LayerNet.Proofs.Reordering
import LayerNet.Proofs.Offering
import LayerNet.Proofs.Exit
import LayerNet.Proofs.Copying
import LayerNet.Proofs.Skipping
import LayerNet.Proofs.Legible
import LayerNet.Proofs.Magnitude
import LayerNet.Proofs.Storing
import LayerNet.Proofs.Ports
import LayerNet.Proofs.Undoing
import LayerNet.Proofs.Removal
import LayerNet.Proofs.Recasting
import LayerNet.Proofs.Relabelling
import LayerNet.Proofs.Distance
import LayerNet.Proofs.Words
import LayerNet.Proofs.Descriptions
import LayerNet.Proofs.Calls
import LayerNet.Proofs.Filing
import LayerNet.Proofs.Encoding
import LayerNet.Proofs.Trial
import LayerNet.Proofs.Nesting
