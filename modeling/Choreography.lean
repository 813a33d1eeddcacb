import Choreography.Main
import Choreography.Animation.Build
import Choreography.Playback
import Choreography.Quantity.Exact
import Choreography.Proofs.Tree
import Choreography.Proofs.Operation
import Choreography.Proofs.Registry
import Choreography.Proofs.Compositional
import Choreography.Proofs.Effect
import Choreography.Proofs.Effect.Nodes
import Choreography.Proofs.Run
import Choreography.Proofs.Backfill
import Choreography.Proofs.Gather
import Choreography.Proofs.Clock
import Choreography.Proofs.Progress
import Choreography.Proofs.Progress.Nodes
import Choreography.Proofs.Overlap
import Choreography.Proofs.Normalized
import Choreography.Proofs.Theatre
import Choreography.Proofs.Restoration
import Choreography.Proofs.Stagger
import Choreography.Proofs.Descent
import Choreography.Proofs.Position
import Choreography.Proofs.Misplaced
import Choreography.Proofs.Shown
import Choreography.Proofs.Written
import Choreography.Proofs.Forward
import Choreography.Proofs.Length
import Choreography.Proofs.Records
import Choreography.Proofs.Originals
import Choreography.Proofs.Interference
import Choreography.Proofs.Correspondence
import Choreography.Proofs.Correspondence.Score
import Choreography.Proofs.Correspondence.Walk
import Choreography.Proofs.Correspondence.Nodes
import Choreography.Proofs.Correspondence.Run
import Choreography.Proofs.Sink
import Choreography.Proofs.Shift
import Choreography.Proofs.Block
import Choreography.Proofs.Matches
import Choreography.Proofs.Branches
import Choreography.Proofs.Wire
import Choreography.Proofs.Wire.Tree
import Choreography.Proofs.Integrity
import Choreography.Proofs.Stock
import Choreography.Proofs.Sketch
import Choreography.Proofs.Sketch.Nodes
import Choreography.Proofs.Sketch.Run
import Choreography.Proofs.Wire.Instruction
import Choreography.Proofs.Sketch.Frame
import Choreography.Proofs.Parameters
import Choreography.Proofs.Parameters.Siblings
import Choreography.Proofs.Parameters.Precedence
import Choreography.Proofs.Waiting
import Choreography.Proofs.FinalStyles
import Choreography.Proofs.Delay
import Choreography.Proofs.Held
import Choreography.Proofs.Easing
import Choreography.Proofs.Pruning
import Choreography.Proofs.Pruning.Score
import Choreography.Proofs.Pruning.Walk
import Choreography.Proofs.Pruning.Nodes
import Choreography.Proofs.Pruning.Run
import Choreography.Proofs.Delegation
import Choreography.Proofs.Stretch
import Choreography.Proofs.Landing
import Choreography.Proofs.Grammar
import Choreography.Proofs.Reading
import Choreography.Proofs.Agreement
import Choreography.Proofs.Templates
import Choreography.Proofs.Selection
import Choreography.Proofs.Selector
import Choreography.Proofs.Lifecycle
import Choreography.Proofs.Sampling
