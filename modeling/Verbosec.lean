import Verbosec.Bounds.Check
import Verbosec.Bounds.Paths
import Verbosec.Bounds.Sound
import Verbosec.Bounds.Track
import Verbosec.Execution.Concurrent
import Verbosec.Execution.ConcurrentSound
import Verbosec.Execution.EscapeLaw
import Verbosec.Execution.Input
import Verbosec.Execution.InputGrammar
import Verbosec.Execution.InputPosition
import Verbosec.Execution.InputSound
import Verbosec.Execution.InputWrite
import Verbosec.Execution.ParseIntLaw
import Verbosec.Execution.Pipeline
import Verbosec.Execution.PipelineSound
import Verbosec.Execution.Waves
import Verbosec.Http.Accept
import Verbosec.Http.Automaton
import Verbosec.Http.Feed
import Verbosec.Http.Framing
import Verbosec.Http.Grammar
import Verbosec.Http.Parse
import Verbosec.Http.ParseExact
import Verbosec.Http.ParseSound
import Verbosec.Http.Receive
import Verbosec.Http.ReceiveSound
import Verbosec.Http.Reference
import Verbosec.Http.Rows
import Verbosec.Http.Send
import Verbosec.Http.SendSound
import Verbosec.Interpreter.Aggregates
import Verbosec.Interpreter.Calls
import Verbosec.Interpreter.Eval
import Verbosec.Interpreter.Fuel
import Verbosec.Interpreter.Guard
import Verbosec.Interpreter.LoadJson
import Verbosec.Interpreter.LoadJsonSound
import Verbosec.Interpreter.Scopes
import Verbosec.Interpreter.TextBytes
import Verbosec.Interpreter.Value
import Verbosec.Lexer.Layout
import Verbosec.Lexer.Literals
import Verbosec.Lexer.Quoting
import Verbosec.Lexer.Sound
import Verbosec.Lexer.Tokenize
import Verbosec.Lib.Amd64
import Verbosec.Lib.Bytes
import Verbosec.Lib.Dict
import Verbosec.Lib.Except
import Verbosec.Lib.Fallible
import Verbosec.Lib.Fenwick
import Verbosec.Lib.Graph
import Verbosec.Lib.Interval
import Verbosec.Lib.JsonString
import Verbosec.Lib.LinearScan
import Verbosec.Lib.Machine
import Verbosec.Lib.Regions
import Verbosec.Lib.Transition
import Verbosec.Lib.Utf8
import Verbosec.Lib.Utf8Text
import Verbosec.Lib.Wasm
import Verbosec.Lib.Word
import Verbosec.Lib.X86
import Verbosec.Native.Admission
import Verbosec.Native.Arena
import Verbosec.Native.ArenaSound
import Verbosec.Native.CallGraph
import Verbosec.Native.CheckedAtoi
import Verbosec.Native.ClientAbort
import Verbosec.Native.ClientAbortSound
import Verbosec.Native.Decode
import Verbosec.Native.DecodeSound
import Verbosec.Native.Division
import Verbosec.Native.FoldOffsets
import Verbosec.Native.FoldOffsetsSound
import Verbosec.Native.Graph
import Verbosec.Native.GraphSound
import Verbosec.Native.Hints
import Verbosec.Native.HintsSound
import Verbosec.Native.Inline
import Verbosec.Native.JsonFill
import Verbosec.Native.JsonFillSound
import Verbosec.Native.Lanes
import Verbosec.Native.LanesEnd
import Verbosec.Native.LanesLayout
import Verbosec.Native.LanesRun
import Verbosec.Native.LanesSound
import Verbosec.Native.LanesWorker
import Verbosec.Native.Layout
import Verbosec.Native.LayoutSound
import Verbosec.Native.NumericExpr
import Verbosec.Native.NumericRule
import Verbosec.Native.NumericRun
import Verbosec.Native.NumericSlots
import Verbosec.Native.NumericSlotsSound
import Verbosec.Native.Offsets
import Verbosec.Native.OffsetsSound
import Verbosec.Native.Pool
import Verbosec.Native.Prologue
import Verbosec.Native.PrologueSound
import Verbosec.Native.RecordJson
import Verbosec.Native.RecordJsonSound
import Verbosec.Native.ServiceState
import Verbosec.Native.ServiceStateSound
import Verbosec.Native.Slots
import Verbosec.Native.SlotsSound
import Verbosec.Native.StepLoop
import Verbosec.Native.StepLoopSound
import Verbosec.Native.Storage
import Verbosec.Native.StorageAlias
import Verbosec.Native.StorageCalls
import Verbosec.Native.StorageCallsSound
import Verbosec.Native.StorageLayout
import Verbosec.Native.StorageOverlay
import Verbosec.Native.StoragePlace
import Verbosec.Native.StorageScopes
import Verbosec.Native.StorageSound
import Verbosec.Native.Streaming
import Verbosec.Native.StreamingSound
import Verbosec.Native.Substitute
import Verbosec.Native.TextEquality
import Verbosec.Native.Wait
import Verbosec.NumericBounds.Accepted
import Verbosec.NumericBounds.Check
import Verbosec.NumericBounds.Constrain
import Verbosec.NumericBounds.Guards
import Verbosec.NumericBounds.NativeOpt
import Verbosec.NumericBounds.NativeOptFacts
import Verbosec.NumericBounds.NativeOptSound
import Verbosec.NumericBounds.Operations
import Verbosec.NumericBounds.Ranges
import Verbosec.NumericBounds.Refinement
import Verbosec.NumericBounds.Sound
import Verbosec.Optimizer.Fold
import Verbosec.Optimizer.FoldSound
import Verbosec.Optimizer.Lets
import Verbosec.Parser.Cursor
import Verbosec.Parser.Expression
import Verbosec.Parser.Rendering
import Verbosec.Parser.RoundTrip
import Verbosec.Participating
import Verbosec.RuleWalk
import Verbosec.Syntax
import Verbosec.TextBounds.Check
import Verbosec.TextBounds.Infer
import Verbosec.TextBounds.Operations
import Verbosec.TextBounds.Sound
import Verbosec.TextBounds.Values
import Verbosec.Verifier.ComputeRange
import Verbosec.Verifier.ConstructorFacts
import Verbosec.Verifier.ConstructorTypes
import Verbosec.Verifier.ConstructorTypesSound
import Verbosec.Verifier.ConstructorValues
import Verbosec.Verifier.Facts
import Verbosec.Verifier.Layers
import Verbosec.Verifier.Monotone
import Verbosec.Verifier.Names
import Verbosec.Verifier.Purity
import Verbosec.Verifier.SelfCalls
import Verbosec.Verifier.Structural
import Verbosec.Verifier.TextState
import Verbosec.Verifier.TextStateSound
import Verbosec.Wasm.Emit
import Verbosec.Wasm.EmitFits
import Verbosec.Wasm.EmitSound
import Verbosec.Wasm.Helpers
import Verbosec.Wasm.HelpersSound
import Verbosec.Wasm.Itoa
import Verbosec.Wasm.JsonEscape
import Verbosec.Wasm.Leb128
import Verbosec.Wasm.ParseInt
