import Suspension.Runner
import Suspension.Symbolic.View
import Suspension.Transform
import Suspension.Settings
import Suspension.Machine.Script
import Suspension.Bytecode.Assembly
import Suspension.Proofs.Container.RoundTrip
import Suspension.Proofs.Container.Canonical
import Suspension.Proofs.Container.PrefixFree
import Suspension.Proofs.Flow.Liveness
import Suspension.Proofs.Flow.ReadAhead
import Suspension.Proofs.Flow.Steps
import Suspension.Proofs.Flow.Stretches
import Suspension.Proofs.Flow.Lowered
import Suspension.Proofs.Flow.Covering
import Suspension.Proofs.Flow.Numbering
import Suspension.Proofs.Symbolic.Classes
import Suspension.Proofs.Symbolic.Paths
import Suspension.Proofs.Symbolic.Slots
import Suspension.Proofs.Symbolic.Joins
import Suspension.Proofs.Symbolic.Matching
import Suspension.Proofs.Symbolic.Lowering
import Suspension.Proofs.Machine.Calm
import Suspension.Proofs.Machine.Keeps
import Suspension.Proofs.Machine.Ordinary
import Suspension.Proofs.Machine.Over
import Suspension.Proofs.Machine.Sessions
import Suspension.Proofs.Weave.Blocks
import Suspension.Proofs.Weave.Layout
import Suspension.Proofs.Weave.Labels
import Suspension.Proofs.Weave.Signals
import Suspension.Proofs.Weave.Opacity
import Suspension.Proofs.Weave.Slots
import Suspension.Proofs.Weave.Resumption
import Suspension.Proofs.Weave.Numbering
import Suspension.Proofs.Weave.RoundTrip
import Suspension.Proofs.Weave.Receiver
import Suspension.Proofs.Weave.Handlers
import Suspension.Proofs.Weave.Ready
import Suspension.Proofs.Weave.Miscounts
import Suspension.Proofs.Weave.Mirror
import Suspension.Proofs.Weave.Settling
import Suspension.Proofs.Weave.Entering
import Suspension.Proofs.Weave.Mirroring
import Suspension.Proofs.Symbolic.Apart
import Suspension.Proofs.Symbolic.Repetition
import Suspension.Proofs.Symbolic.Recall
import Suspension.Proofs.Symbolic.Sections
import Suspension.Proofs.Weave.Frames
import Suspension.Proofs.Weave.Passages
import Suspension.Proofs.Container.Bounded
import Suspension.Proofs.Transform.Entries
import Suspension.Proofs.Transform.Again
import Suspension.Proofs.Weave.Care
import Suspension.Proofs.Weave.Tending
import Suspension.Proofs.Weave.Tidy
import Suspension.Proofs.Machine.Requests
import Suspension.Proofs.Transform.Captured
import Suspension.Proofs.Weave.Contents
import Suspension.Proofs.Weave.Linked
import Suspension.Proofs.Weave.Linkage
import Suspension.Proofs.Weave.SlotsApart
import Suspension.Proofs.Weave.Spots
import Suspension.Proofs.Weave.Fitting
import Suspension.Proofs.Weave.Relaying
import Suspension.Proofs.Transform.Accepted
import Suspension.Proofs.Weave.Refusals
import Suspension.Proofs.Symbolic.Shuffles
import Suspension.Proofs.Machine.History
import Suspension.Proofs.Weave.Returns
import Suspension.Proofs.Weave.Leaving
import Suspension.Proofs.Transform.Balanced
import Suspension.Proofs.Bytecode.Grammar
import Suspension.Proofs.Container.Integers
import Suspension.Proofs.Machine.Budget
import Suspension.Proofs.Symbolic.FirstStores
import Suspension.Proofs.Symbolic.Retyping
import Suspension.Proofs.Symbolic.InStep
import Suspension.Proofs.Machine.Objects
import Suspension.Proofs.Machine.Answers
import Suspension.Proofs.Weave.Ground
import Suspension.Proofs.Weave.Awaiting
import Suspension.Proofs.Weave.Answering
import Suspension.Proofs.Transform.Answered
