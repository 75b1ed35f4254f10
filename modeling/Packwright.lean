import Packwright.Anonymous
import Packwright.Block
import Packwright.Build
import Packwright.CommandLine.Clock
import Packwright.CommandLine.Number
import Packwright.CommandLine.Options
import Packwright.CommandLine.Program
import Packwright.CommandLine.Request
import Packwright.Comment
import Packwright.Compiler
import Packwright.Continuation
import Packwright.Digest.Base32
import Packwright.Digest.Sha256
import Packwright.Fault
import Packwright.FileTree.Basic
import Packwright.FileTree.Error
import Packwright.Macro.Argument
import Packwright.Macro.CallSite
import Packwright.Macro.Expansion
import Packwright.Macro.Header
import Packwright.Macro.Suggestion
import Packwright.Macro.Supply
import Packwright.Macro.Table
import Packwright.Main
import Packwright.Name
import Packwright.Note
import Packwright.Pack
import Packwright.PackMeta
import Packwright.Path
import Packwright.Pipeline.Event
import Packwright.Pipeline.Run
import Packwright.Pipeline.Stage
import Packwright.Proofs.Address
import Packwright.Proofs.Anonymous
import Packwright.Proofs.Block.Extraction
import Packwright.Proofs.Block.Lowering
import Packwright.Proofs.Block.Numbering
import Packwright.Proofs.Block.Order
import Packwright.Proofs.Block.Recovery
import Packwright.Proofs.Block.Sharing
import Packwright.Proofs.Block.Span
import Packwright.Proofs.Build
import Packwright.Proofs.Causality
import Packwright.Proofs.Chain
import Packwright.Proofs.Confinement
import Packwright.Proofs.Continuation
import Packwright.Proofs.Digest
import Packwright.Proofs.Drawing
import Packwright.Proofs.Encoding
import Packwright.Proofs.Fault
import Packwright.Proofs.FileTree.Growth
import Packwright.Proofs.FileTree.Resolution
import Packwright.Proofs.FileTree.Shape
import Packwright.Proofs.Flat
import Packwright.Proofs.Flow
import Packwright.Proofs.Grammar
import Packwright.Proofs.Layout
import Packwright.Proofs.Line
import Packwright.Proofs.Listing
import Packwright.Proofs.Macro.Argument
import Packwright.Proofs.Macro.Body
import Packwright.Proofs.Macro.CallSite
import Packwright.Proofs.Macro.Closing
import Packwright.Proofs.Macro.Conservation
import Packwright.Proofs.Macro.Delivery
import Packwright.Proofs.Macro.Distance
import Packwright.Proofs.Macro.Division
import Packwright.Proofs.Macro.Entry
import Packwright.Proofs.Macro.Inlining
import Packwright.Proofs.Macro.Key
import Packwright.Proofs.Macro.Limit
import Packwright.Proofs.Macro.Meaning
import Packwright.Proofs.Macro.Memoization
import Packwright.Proofs.Macro.Moments
import Packwright.Proofs.Macro.Move
import Packwright.Proofs.Macro.Names
import Packwright.Proofs.Macro.Rank
import Packwright.Proofs.Macro.Records
import Packwright.Proofs.Macro.Refinement
import Packwright.Proofs.Macro.Residue
import Packwright.Proofs.Macro.Scan
import Packwright.Proofs.Macro.Settlement
import Packwright.Proofs.Macro.Showing
import Packwright.Proofs.Macro.Suggestion
import Packwright.Proofs.Macro.Termination
import Packwright.Proofs.Macro.Trace
import Packwright.Proofs.Macro.Unfolding
import Packwright.Proofs.Name
import Packwright.Proofs.Path
import Packwright.Proofs.Plain
import Packwright.Proofs.Rebuild
import Packwright.Proofs.Session
import Packwright.Proofs.Substitution
import Packwright.Proofs.Text
import Packwright.Proofs.Uniqueness
import Packwright.Proofs.Walk
import Packwright.Proofs.Words
import Packwright.Proofs.Writing
import Packwright.Scope
import Packwright.Sink
import Packwright.Source
import Packwright.Substitution
import Packwright.Text.Basic
import Packwright.Text.CaseFold
import Packwright.Text.Line
import Packwright.Text.LowerCase
import Packwright.Text.Numeral
import Packwright.Text.Piece
import Packwright.Text.Printable
import Packwright.Text.Quoted
import Packwright.Text.WhiteSpace
