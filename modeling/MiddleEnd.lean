import MiddleEnd.Arena.Ancestry
import MiddleEnd.Arena.Closed
import MiddleEnd.Arena.Dump
import MiddleEnd.Arena.Edit
import MiddleEnd.Arena.Listing
import MiddleEnd.Arena.Program
import MiddleEnd.Arena.Registry
import MiddleEnd.Arena.Verify
import MiddleEnd.Arena.Walk
import MiddleEnd.Calls.Graph
import MiddleEnd.Calls.Listing
import MiddleEnd.Calls.Sites
import MiddleEnd.Check.Closed
import MiddleEnd.Check.Finding
import MiddleEnd.Check.Returns
import MiddleEnd.Check.Rules
import MiddleEnd.Check.Suite
import MiddleEnd.Closure.Capture
import MiddleEnd.Closure.Flatten
import MiddleEnd.CommandLine.Command
import MiddleEnd.CommandLine.Directory
import MiddleEnd.CommandLine.Execute
import MiddleEnd.Diagnostic
import MiddleEnd.Exchange
import MiddleEnd.Flag
import MiddleEnd.Flow.Ascending
import MiddleEnd.Flow.BitSet
import MiddleEnd.Flow.Fixpoint
import MiddleEnd.Flow.Graph
import MiddleEnd.Flow.Listing
import MiddleEnd.Flow.Liveness
import MiddleEnd.Id
import MiddleEnd.Json.Reader
import MiddleEnd.Json.Value
import MiddleEnd.Json.Writer
import MiddleEnd.Main
import MiddleEnd.Node
import MiddleEnd.Pipeline.Closed
import MiddleEnd.Pipeline.Config
import MiddleEnd.Pipeline.Pass
import MiddleEnd.Pipeline.Report
import MiddleEnd.Pipeline.Run
import MiddleEnd.Proofs.Arena.Attach
import MiddleEnd.Proofs.Arena.Confined
import MiddleEnd.Proofs.Arena.Destroy
import MiddleEnd.Proofs.Arena.Detach
import MiddleEnd.Proofs.Arena.Edits
import MiddleEnd.Proofs.Arena.Enclosing
import MiddleEnd.Proofs.Arena.Entries
import MiddleEnd.Proofs.Arena.Epoch
import MiddleEnd.Proofs.Arena.Forest
import MiddleEnd.Proofs.Arena.Growth
import MiddleEnd.Proofs.Arena.History
import MiddleEnd.Proofs.Arena.Lookup
import MiddleEnd.Proofs.Arena.Module
import MiddleEnd.Proofs.Arena.Path
import MiddleEnd.Proofs.Arena.Preorder
import MiddleEnd.Proofs.Arena.Reached
import MiddleEnd.Proofs.Arena.Rebuilt
import MiddleEnd.Proofs.Arena.Relink
import MiddleEnd.Proofs.Arena.Rescope
import MiddleEnd.Proofs.Arena.Retarget
import MiddleEnd.Proofs.Arena.Slots
import MiddleEnd.Proofs.Arena.Sound
import MiddleEnd.Proofs.Arena.Spans
import MiddleEnd.Proofs.Arena.Subtree
import MiddleEnd.Proofs.Arena.Survey
import MiddleEnd.Proofs.Arena.Traversal
import MiddleEnd.Proofs.Arena.Untouched
import MiddleEnd.Proofs.Arena.Upright
import MiddleEnd.Proofs.Arena.Way
import MiddleEnd.Proofs.Calls.Exact
import MiddleEnd.Proofs.Calls.Lexical
import MiddleEnd.Proofs.Calls.Sites
import MiddleEnd.Proofs.Calls.Tracked
import MiddleEnd.Proofs.Check.Runs
import MiddleEnd.Proofs.Check.Tally
import MiddleEnd.Proofs.Closure.Capture
import MiddleEnd.Proofs.Closure.Circular
import MiddleEnd.Proofs.Closure.Closed
import MiddleEnd.Proofs.Closure.Closing
import MiddleEnd.Proofs.Closure.Converts
import MiddleEnd.Proofs.Closure.Correspond
import MiddleEnd.Proofs.Closure.Course
import MiddleEnd.Proofs.Closure.Coverage
import MiddleEnd.Proofs.Closure.Demanded
import MiddleEnd.Proofs.Closure.Events
import MiddleEnd.Proofs.Closure.Evolve
import MiddleEnd.Proofs.Closure.ExtendCall
import MiddleEnd.Proofs.Closure.ExtendFunction
import MiddleEnd.Proofs.Closure.Fate
import MiddleEnd.Proofs.Closure.Flat
import MiddleEnd.Proofs.Closure.Flatten
import MiddleEnd.Proofs.Closure.Formals
import MiddleEnd.Proofs.Closure.Frame
import MiddleEnd.Proofs.Closure.Jumps
import MiddleEnd.Proofs.Closure.Lasting
import MiddleEnd.Proofs.Closure.Least
import MiddleEnd.Proofs.Closure.Names
import MiddleEnd.Proofs.Closure.Nesting
import MiddleEnd.Proofs.Closure.Order
import MiddleEnd.Proofs.Closure.PassCaptures
import MiddleEnd.Proofs.Closure.Plan
import MiddleEnd.Proofs.Closure.Reads
import MiddleEnd.Proofs.Closure.Redirect
import MiddleEnd.Proofs.Closure.Relocate
import MiddleEnd.Proofs.Closure.Returns
import MiddleEnd.Proofs.Closure.Rework
import MiddleEnd.Proofs.Closure.Stage
import MiddleEnd.Proofs.Closure.Stored
import MiddleEnd.Proofs.Closure.Supply
import MiddleEnd.Proofs.Closure.Total
import MiddleEnd.Proofs.Flow.BitSet
import MiddleEnd.Proofs.Flow.Builder
import MiddleEnd.Proofs.Flow.Contents
import MiddleEnd.Proofs.Flow.Execution
import MiddleEnd.Proofs.Flow.Filter
import MiddleEnd.Proofs.Flow.Fixpoint
import MiddleEnd.Proofs.Flow.Jumps
import MiddleEnd.Proofs.Flow.Layout
import MiddleEnd.Proofs.Flow.Liveness
import MiddleEnd.Proofs.Flow.Machine
import MiddleEnd.Proofs.Flow.Members
import MiddleEnd.Proofs.Flow.Paired
import MiddleEnd.Proofs.Flow.Partition
import MiddleEnd.Proofs.Flow.Paths
import MiddleEnd.Proofs.Flow.Plain
import MiddleEnd.Proofs.Flow.Recompute
import MiddleEnd.Proofs.Flow.Source
import MiddleEnd.Proofs.Flow.Stale
import MiddleEnd.Proofs.Flow.Summary
import MiddleEnd.Proofs.Outcome
import MiddleEnd.Proofs.Pipeline.Answers
import MiddleEnd.Proofs.Pipeline.CallLists
import MiddleEnd.Proofs.Pipeline.Gate
import MiddleEnd.Proofs.Pipeline.Session
import MiddleEnd.Proofs.Pipeline.SideChannel
import MiddleEnd.Proofs.Pipeline.Turn
import MiddleEnd.Proofs.Pipeline.Verified
import MiddleEnd.Proofs.Settled.Change
import MiddleEnd.Proofs.Settled.Keep
import MiddleEnd.Proofs.Settled.Lawful
import MiddleEnd.Proofs.Settled.Verify
import MiddleEnd.Proofs.Store.Agree
import MiddleEnd.Proofs.Store.Dead
import MiddleEnd.Proofs.Store.Erase
import MiddleEnd.Proofs.Store.Prune
import MiddleEnd.Proofs.Store.Round
import MiddleEnd.Proofs.Store.Sweep
import MiddleEnd.Proofs.Surface.Additions
import MiddleEnd.Proofs.Surface.Binding
import MiddleEnd.Proofs.Surface.Blocks
import MiddleEnd.Proofs.Surface.Build
import MiddleEnd.Proofs.Surface.Grow
import MiddleEnd.Proofs.Surface.Hoist
import MiddleEnd.Proofs.Surface.Labels
import MiddleEnd.Proofs.Surface.Linked
import MiddleEnd.Proofs.Surface.Loops
import MiddleEnd.Proofs.Surface.Lowering
import MiddleEnd.Proofs.Surface.Named
import MiddleEnd.Proofs.Surface.Nested
import MiddleEnd.Proofs.Surface.Ordered
import MiddleEnd.Proofs.Surface.Returns
import MiddleEnd.Proofs.Surface.Scoping
import MiddleEnd.Proofs.Surface.Sight
import MiddleEnd.Proofs.Surface.Spelling
import MiddleEnd.Proofs.Surface.Statements
import MiddleEnd.Proofs.Surface.TextOrder
import MiddleEnd.Proofs.Surface.Tracked
import MiddleEnd.Proofs.Surface.Unique
import MiddleEnd.Span
import MiddleEnd.Store.Dead
import MiddleEnd.Store.Usage
import MiddleEnd.Surface.Decode
import MiddleEnd.Surface.Lower
import MiddleEnd.Surface.Tree
import MiddleEnd.Symbol
import MiddleEnd.Text.Blank
import MiddleEnd.Text.Printable
import MiddleEnd.Text.Quoted
import MiddleEnd.Transform
import MiddleEnd.Ty
import MiddleEnd.Workspace
