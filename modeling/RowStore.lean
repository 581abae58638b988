import RowStore.Bytes.Reader
import RowStore.Bytes.Words
import RowStore.Bytes.Decimal
import RowStore.Bytes.Window
import RowStore.Fault
import RowStore.Node.Codec
import RowStore.Schema.Row
import RowStore.Schema.Codec
import RowStore.Store.File
import RowStore.Tree.Insert
import RowStore.Tree.Check
import RowStore.CommandLine
import RowStore.Main
import RowStore.Proofs.Store.View
import RowStore.Proofs.Tree.Steps
import RowStore.Proofs.Tree.Attach
import RowStore.Proofs.Tree.Budget
import RowStore.Proofs.Tree.Refusal
import RowStore.Proofs.Tree.Insertion
import RowStore.Proofs.Node.RoundTrip
import RowStore.Proofs.Node.Encoding
import RowStore.Proofs.Store.Reopen
import RowStore.Proofs.Tree.Runs
import RowStore.Proofs.Tree.Guarantees
import RowStore.Proofs.Schema.RoundTrip
import RowStore.Proofs.Schema.Rows
import RowStore.Proofs.Table.Steps
import RowStore.Proofs.Table.Reopen
import RowStore.Proofs.Table.Durability
import RowStore.Proofs.Node.Grammar
import RowStore.Proofs.Table.Contents
import RowStore.Proofs.Tree.Findings
import RowStore.Proofs.Tree.Room
import RowStore.Proofs.Tree.Filling
import RowStore.Proofs.Bytes.Lines
import RowStore.Proofs.Wording
import RowStore.Proofs.Session.Commands
import RowStore.Proofs.Session.Steps
import RowStore.Proofs.Session.Saving
import RowStore.Proofs.Session.Files
import RowStore.Proofs.Session.Reports
import RowStore.Proofs.Lockstep
import RowStore.Proofs.Invariant
import RowStore.Proofs.Schema.Framing
import RowStore.Proofs.Store.Array
import RowStore.Proofs.Store.Twins
import RowStore.Proofs.Table.Twins
import RowStore.Proofs.Session.Splitting
import RowStore.Proofs.Tree.Still
import RowStore.Proofs.Tree.Lookup
import RowStore.Proofs.Tree.Growth
import RowStore.Proofs.Store.Sturdy
import RowStore.Proofs.Tree.Sturdy
import RowStore.Proofs.Table.Sturdy
import RowStore.Proofs.Table.Evolution
import RowStore.Proofs.Table.Capacity
import RowStore.Proofs.Table.Clearing
import RowStore.Proofs.Table.Resaving
import RowStore.Proofs.Table.Wrapping
import RowStore.Proofs.Tree.Visits
import RowStore.Proofs.Tree.Cycles
import RowStore.Proofs.Tree.Reporting
import RowStore.Proofs.Tree.Halving
import RowStore.Proofs.Table.Freezing
import RowStore.Proofs.Bytes.Numerals
import RowStore.Proofs.Schema.Words
import RowStore.Proofs.Schema.Definitions
import RowStore.Proofs.Bytes.Layout
import RowStore.Proofs.Session.Printing
import RowStore.Proofs.Bytes.Streams
import RowStore.Proofs.Tree.Conservation
import RowStore.Proofs.Tree.Propagation
