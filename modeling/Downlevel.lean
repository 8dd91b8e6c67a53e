import Downlevel.CommandLine.Arguments
import Downlevel.CommandLine.Directory
import Downlevel.CommandLine.Surroundings
import Downlevel.CommandLine.Flag
import Downlevel.CommandLine.Run
import Downlevel.Diagnostic
import Downlevel.NameSupply
import Downlevel.Json
import Downlevel.Json.Parse
import Downlevel.Lexer
import Downlevel.Lexer.Scan
import Downlevel.Lexer.Trivia
import Downlevel.Lowering
import Downlevel.Lowering.Chain
import Downlevel.Lowering.Class
import Downlevel.Lowering.Class.Accessor
import Downlevel.Lowering.Class.Body
import Downlevel.Lowering.Class.Keys
import Downlevel.Lowering.Class.PrivateNames
import Downlevel.Lowering.Class.Slot
import Downlevel.Lowering.Forms
import Downlevel.Lowering.Function
import Downlevel.Lowering.Literal
import Downlevel.Lowering.Loop
import Downlevel.Lowering.ObjectRest
import Downlevel.Lowering.Operation
import Downlevel.Lowering.Private
import Downlevel.Lowering.Receiver
import Downlevel.Lowering.State
import Downlevel.Lowering.Statement
import Downlevel.Lowering.Walk
import Downlevel.Main
import Downlevel.Scope
import Downlevel.Operator
import Downlevel.Options
import Downlevel.Options.Json
import Downlevel.Parser
import Downlevel.Parser.AssignmentTarget
import Downlevel.Parser.Declaration
import Downlevel.Parser.Expression
import Downlevel.Parser.Function
import Downlevel.Parser.Grammar
import Downlevel.Parser.Pattern
import Downlevel.Parser.Literal
import Downlevel.Parser.Member
import Downlevel.Parser.Module
import Downlevel.Parser.Reader
import Downlevel.Parser.Statement
import Downlevel.Printer
import Downlevel.Printer.Precedence
import Downlevel.Problem
import Downlevel.Proofs.Directives
import Downlevel.Proofs.StateSteps
import Downlevel.Proofs.Features
import Downlevel.Proofs.FieldKeys
import Downlevel.Proofs.Formed
import Downlevel.Proofs.Forms
import Downlevel.Proofs.Forwarding
import Downlevel.Proofs.Hygiene
import Downlevel.Proofs.Lexing.Ends
import Downlevel.Proofs.Lexing.Reach
import Downlevel.Proofs.Lexing.Steps
import Downlevel.Proofs.Lexing.Tiling
import Downlevel.Proofs.Literals
import Downlevel.Proofs.Templates
import Downlevel.Proofs.MadeUpNames
import Downlevel.Proofs.Meaning.Accesses
import Downlevel.Proofs.Meaning.Assignments
import Downlevel.Proofs.Meaning.ChainLowering
import Downlevel.Proofs.Meaning.ChainModes
import Downlevel.Proofs.Meaning.Chains
import Downlevel.Proofs.Meaning.Evaluation
import Downlevel.Proofs.Meaning.KeyCaptures
import Downlevel.Proofs.Meaning.Keys
import Downlevel.Proofs.Meaning.Names
import Downlevel.Proofs.Meaning.Operations
import Downlevel.Proofs.Meaning.Operators
import Downlevel.Proofs.Meaning.Preservation
import Downlevel.Proofs.Meaning.RestKeys
import Downlevel.Proofs.Meaning.Simulation
import Downlevel.Proofs.Meaning.Steps
import Downlevel.Proofs.Native.Classes
import Downlevel.Proofs.Native.Parts
import Downlevel.Proofs.Native.Programs
import Downlevel.Proofs.Native.Steps
import Downlevel.Proofs.Native.Walk
import Downlevel.Proofs.Nodes
import Downlevel.Proofs.Numerals
import Downlevel.Proofs.Pauses.Carries
import Downlevel.Proofs.Pauses.Chains
import Downlevel.Proofs.Pauses.Classes
import Downlevel.Proofs.Pauses.Functions
import Downlevel.Proofs.Pauses.Operations
import Downlevel.Proofs.Pauses.Statements
import Downlevel.Proofs.Pauses.Trees
import Downlevel.Proofs.Pauses.Values
import Downlevel.Proofs.Pauses.Walk
import Downlevel.Proofs.PrivateStorage
import Downlevel.Proofs.Reading.Apart
import Downlevel.Proofs.Reading.ApartExpressions
import Downlevel.Proofs.Reading.ApartParts
import Downlevel.Proofs.Reading.ApartStatements
import Downlevel.Proofs.Reading.Buffer
import Downlevel.Proofs.Reading.Expressions
import Downlevel.Proofs.Reading.Names
import Downlevel.Proofs.Reading.Places
import Downlevel.Proofs.Reading.Programs
import Downlevel.Proofs.Reading.SettledExpressions
import Downlevel.Proofs.Reading.SettledParts
import Downlevel.Proofs.Reading.SettledStatements
import Downlevel.Proofs.Reading.Settles
import Downlevel.Proofs.Reading.Termination
import Downlevel.Proofs.Reading.Transparent
import Downlevel.Proofs.Reading.Yields
import Downlevel.Proofs.Remaining.Builders
import Downlevel.Proofs.Remaining.Chains
import Downlevel.Proofs.Remaining.Classes
import Downlevel.Proofs.Remaining.Frames
import Downlevel.Proofs.Remaining.Functions
import Downlevel.Proofs.Remaining.Members
import Downlevel.Proofs.Remaining.Operations
import Downlevel.Proofs.Remaining.Programs
import Downlevel.Proofs.Remaining.Rests
import Downlevel.Proofs.Remaining.Rules
import Downlevel.Proofs.Remaining.Statements
import Downlevel.Proofs.Remaining.Steps
import Downlevel.Proofs.Remaining.Trees
import Downlevel.Proofs.Remaining.Walk
import Downlevel.Proofs.Renaming
import Downlevel.Proofs.RoundTrip.Elements
import Downlevel.Proofs.RoundTrip.Guesses
import Downlevel.Proofs.RoundTrip.Levels
import Downlevel.Proofs.RoundTrip.Lexemes
import Downlevel.Proofs.RoundTrip.Mixtures
import Downlevel.Proofs.RoundTrip.Operands
import Downlevel.Proofs.RoundTrip.Operations
import Downlevel.Proofs.RoundTrip.Printed
import Downlevel.Proofs.RoundTrip.Programs
import Downlevel.Proofs.RoundTrip.Readings
import Downlevel.Proofs.RoundTrip.Rereading
import Downlevel.Proofs.RoundTrip.Scans
import Downlevel.Proofs.RoundTrip.Suffixes
import Downlevel.Proofs.RoundTrip.Trees
import Downlevel.Proofs.RoundTrip.Trials
import Downlevel.Proofs.Runs
import Downlevel.Proofs.Safety
import Downlevel.Proofs.Scoping.Builders
import Downlevel.Proofs.Scoping.Chains
import Downlevel.Proofs.Scoping.Classes
import Downlevel.Proofs.Scoping.Complete
import Downlevel.Proofs.Scoping.Frames
import Downlevel.Proofs.Scoping.Functions
import Downlevel.Proofs.Scoping.Literals
import Downlevel.Proofs.Scoping.Members
import Downlevel.Proofs.Scoping.Numbering
import Downlevel.Proofs.Scoping.Operations
import Downlevel.Proofs.Scoping.Printing
import Downlevel.Proofs.Scoping.Privates
import Downlevel.Proofs.Scoping.Programs
import Downlevel.Proofs.Scoping.Regions
import Downlevel.Proofs.Scoping.Renaming
import Downlevel.Proofs.Scoping.Rests
import Downlevel.Proofs.Scoping.Statements
import Downlevel.Proofs.Scoping.Steps
import Downlevel.Proofs.Scoping.Survey
import Downlevel.Proofs.Scoping.Trees
import Downlevel.Proofs.Scoping.Uses
import Downlevel.Proofs.Scoping.Walk
import Downlevel.Proofs.Scoping.Worlds
import Downlevel.Proofs.StringValues
import Downlevel.Proofs.TempHistory
import Downlevel.Purity
import Downlevel.Scope.Survey
import Downlevel.Source
import Downlevel.Span
import Downlevel.SyntaxError
import Downlevel.Target
import Downlevel.Target.Feature
import Downlevel.Target.Spelling
import Downlevel.Temp
import Downlevel.Text.Alphanumeric
import Downlevel.Text.Bytes
import Downlevel.Text.Classes
import Downlevel.Text.Decimal
import Downlevel.Text.Escape
import Downlevel.Text.Printable
import Downlevel.Text.Utf8
import Downlevel.Token
import Downlevel.Token.Keyword
import Downlevel.Token.Punctuator
import Downlevel.Tree
import Downlevel.Tree.Build
import Downlevel.Tree.Json
import Downlevel.Tree.Rename
import Downlevel.Tree.Search
