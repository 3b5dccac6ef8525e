import SharedValue.Array
import SharedValue.Config
import SharedValue.Config.Toml
import SharedValue.Decimal
import SharedValue.Decode
import SharedValue.Display
import SharedValue.Double.Basic
import SharedValue.Double.Layout
import SharedValue.Double.Nearest
import SharedValue.Double.Shortest
import SharedValue.Encode
import SharedValue.Equality
import SharedValue.Event
import SharedValue.Function
import SharedValue.Heap
import SharedValue.Heap.Dereference
import SharedValue.Heap.Element
import SharedValue.Heap.Handle
import SharedValue.Heap.Store
import SharedValue.Json.Reader
import SharedValue.Json.Writer
import SharedValue.Key
import SharedValue.Literal
import SharedValue.Navigation
import SharedValue.Proofs.Acyclic.Clear
import SharedValue.Proofs.Acyclic.Editing
import SharedValue.Proofs.Acyclic.Gains
import SharedValue.Proofs.Acyclic.Programs
import SharedValue.Proofs.Acyclic.Reachable
import SharedValue.Proofs.Acyclic.Writing
import SharedValue.Proofs.Appending
import SharedValue.Proofs.Assigning
import SharedValue.Proofs.Binding
import SharedValue.Proofs.Building
import SharedValue.Proofs.Copies
import SharedValue.Proofs.Decimal.Words
import SharedValue.Proofs.Declaring
import SharedValue.Proofs.Decoding
import SharedValue.Proofs.Deleting
import SharedValue.Proofs.Double.Exact
import SharedValue.Proofs.Double.Fields
import SharedValue.Proofs.Double.Nearest
import SharedValue.Proofs.Double.Shortest
import SharedValue.Proofs.Double.Truncation
import SharedValue.Proofs.Equality
import SharedValue.Proofs.Except
import SharedValue.Proofs.Failures
import SharedValue.Proofs.Following
import SharedValue.Proofs.Forest.Basic
import SharedValue.Proofs.Forest.Changes
import SharedValue.Proofs.Forest.Commands
import SharedValue.Proofs.Forest.Refinement
import SharedValue.Proofs.Forest.Related
import SharedValue.Proofs.Forest.Represents
import SharedValue.Proofs.Forest.Separation
import SharedValue.Proofs.Forest.Shows
import SharedValue.Proofs.Forest.Targets
import SharedValue.Proofs.Forest.Writing
import SharedValue.Proofs.Heap.Chain
import SharedValue.Proofs.Heap.Destination
import SharedValue.Proofs.Heap.Mention
import SharedValue.Proofs.Heap.Operations
import SharedValue.Proofs.Heap.Quiet
import SharedValue.Proofs.Heap.Release
import SharedValue.Proofs.Isolation
import SharedValue.Proofs.Iterating
import SharedValue.Proofs.KeySpace
import SharedValue.Proofs.KeySpace.Bare
import SharedValue.Proofs.KeySpace.OtherKeys
import SharedValue.Proofs.KeySpace.Spelling
import SharedValue.Proofs.KeyTexts
import SharedValue.Proofs.Lists
import SharedValue.Proofs.OrderedMap
import SharedValue.Proofs.Program
import SharedValue.Proofs.Readings
import SharedValue.Proofs.Reassigning
import SharedValue.Proofs.Registry
import SharedValue.Proofs.RoundTrip.Json
import SharedValue.Proofs.RoundTrip.Keys
import SharedValue.Proofs.RoundTrip.Meaning
import SharedValue.Proofs.RoundTrip.Normal
import SharedValue.Proofs.RoundTrip.Numbers
import SharedValue.Proofs.RoundTrip.Plain
import SharedValue.Proofs.RoundTrip.Reading
import SharedValue.Proofs.RoundTrip.Writing
import SharedValue.Proofs.Setting
import SharedValue.Proofs.Sharing
import SharedValue.Proofs.Sharing.Counting
import SharedValue.Proofs.Sharing.Handles
import SharedValue.Proofs.Standing.Commands
import SharedValue.Proofs.Standing.Operations
import SharedValue.Proofs.Table.Latest
import SharedValue.Proofs.Table.NextFree
import SharedValue.Proofs.Table.Pairs
import SharedValue.Proofs.Table.Readings
import SharedValue.Proofs.Table.WellFormed
import SharedValue.Proofs.TableInvariant
import SharedValue.Proofs.Walk.Depth
import SharedValue.Proofs.Walk.Encoding
import SharedValue.Proofs.Walk.Graph
import SharedValue.Proofs.Walk.Marks
import SharedValue.Proofs.Walk.Pictures
import SharedValue.Proofs.Workspace.Anchored
import SharedValue.Proofs.Workspace.Commands
import SharedValue.Proofs.Workspace.Holders
import SharedValue.Proofs.Workspace.Operations
import SharedValue.Proofs.Workspace.Path
import SharedValue.Proofs.Workspace.Preparation
import SharedValue.Proofs.Workspace.Quiet
import SharedValue.Proofs.Workspace.Separation
import SharedValue.Proofs.Workspace.Target
import SharedValue.Proofs.Workspace.Variables
import SharedValue.Proofs.Workspace.Writing
import SharedValue.Registry
import SharedValue.Symbols
import SharedValue.Table
import SharedValue.Text.Bytes
import SharedValue.Text.Quoted
import SharedValue.Text.Scan
import SharedValue.Text.Unprintable
import SharedValue.Toml.Document
import SharedValue.Toml.Token
import SharedValue.Value
import SharedValue.Workspace
