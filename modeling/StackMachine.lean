import StackMachine.Text.Blank
import StackMachine.Text.Lines
import StackMachine.Text.Numeral
import StackMachine.Text.Utf8
import StackMachine.Bytes
import StackMachine.Error
import StackMachine.Opcode
import StackMachine.Instruction
import StackMachine.Listing
import StackMachine.Assembly.Token
import StackMachine.Assembly.Literal
import StackMachine.Assembly.Source
import StackMachine.Assembly.Diagnostic
import StackMachine.Text.Size
import StackMachine.Capacities
import StackMachine.Machine.Stack
import StackMachine.Machine.Page
import StackMachine.Machine.Memory
import StackMachine.Action
import StackMachine.Machine.State
import StackMachine.Machine.Handler
import StackMachine.Machine
import StackMachine.Decoding
import StackMachine.Log.Calendar
import StackMachine.Log.Timestamp
import StackMachine.Log.Level
import StackMachine.Log.Line
import StackMachine.Environment
import StackMachine.Text.Replace
import StackMachine.Text.CharClass
import StackMachine.Text.Extender
import StackMachine.Text.Ignorable
import StackMachine.Text.Printable
import StackMachine.Derive.Template
import StackMachine.Derive.Gap
import StackMachine.Derive.StringLiteral
import StackMachine.Derive.Attribute
import StackMachine.Derive.Item
import StackMachine.Derive.Code
import StackMachine.Command.Path
import StackMachine.Command.FileTree
import StackMachine.Command.Report
import StackMachine.Command.Program
import StackMachine.Command.Runner
import StackMachine.Command.Assembler
import StackMachine.Main
import StackMachine.Proofs.FlatMemory
import StackMachine.Proofs.Reference
import StackMachine.Proofs.Refinement
import StackMachine.Proofs.Session
import StackMachine.Proofs.FaultAtomicity
import StackMachine.Proofs.ListingRoundTrip
import StackMachine.Proofs.FetchAgreement
import StackMachine.Proofs.MemoryAccess
import StackMachine.Proofs.PageCommitment
import StackMachine.Proofs.Invariant
import StackMachine.Proofs.Spelling
import StackMachine.Proofs.DirectExecution
import StackMachine.Proofs.Concatenation
import StackMachine.Proofs.FreshRun
import StackMachine.Proofs.ListingExactness
import StackMachine.Proofs.LiteralGrammar
import StackMachine.Proofs.LiteralWidths
import StackMachine.Proofs.Tokens
import StackMachine.Proofs.TokenRuns
import StackMachine.Proofs.SourceErrors
import StackMachine.Proofs.LineGrammar
import StackMachine.Proofs.NormalForm
import StackMachine.Proofs.StackFrame
import StackMachine.Proofs.DataIndependence
import StackMachine.Proofs.CheckedEngine
import StackMachine.Proofs.Domains
import StackMachine.Proofs.CheckedParts
import StackMachine.Proofs.HaltedRuns
import StackMachine.Proofs.FileAccess
import StackMachine.Proofs.OptionGroups
import StackMachine.Proofs.DefaultOutput
import StackMachine.Proofs.CommandOutcomes
import StackMachine.Proofs.EnvironmentOverride
import StackMachine.Proofs.OptionOrder
import StackMachine.Proofs.OwnCode
import StackMachine.Proofs.SourceKept
import StackMachine.Proofs.ObjectFiles
import StackMachine.Proofs.CivilCalendar
import StackMachine.Proofs.SizeGrammar
import StackMachine.Proofs.TemplatePieces
import StackMachine.Proofs.Renaming
import StackMachine.Proofs.PositionalFields
import StackMachine.Proofs.FormatReading
import StackMachine.Proofs.IntegerDecodings
import StackMachine.Proofs.NumberFields
import StackMachine.Proofs.TimestampOrder
import StackMachine.Proofs.CaretColumn
