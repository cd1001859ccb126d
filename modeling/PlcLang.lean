import PlcLang.Decimal.Order
import PlcLang.Session
import PlcLang.Main
import PlcLang.Java.Emitter
import PlcLang.Tree.TapeParser
import PlcLang.Proofs.TypeRules
import PlcLang.Proofs.CheckerContext
import PlcLang.Proofs.CheckerSound
import PlcLang.Proofs.CheckerComplete
import PlcLang.Proofs.Plan
import PlcLang.Proofs.RunPlan
import PlcLang.Proofs.Contracts
import PlcLang.Proofs.ScopeChain
import PlcLang.Proofs.RunActions
import PlcLang.Proofs.RunFrame
import PlcLang.Proofs.RunNames
import PlcLang.Proofs.RunFunctions
import PlcLang.Proofs.Resolution
import PlcLang.Proofs.RunSteps
import PlcLang.Proofs.RunPrefixes
import PlcLang.Proofs.ListTypes
import PlcLang.Proofs.Conformance
import PlcLang.Proofs.TypeSoundness
import PlcLang.Proofs.LexerExact
import PlcLang.Proofs.Grammar
import PlcLang.Proofs.ParserReads
import PlcLang.Proofs.ExpressionReads
import PlcLang.Proofs.ProgramReads
import PlcLang.Proofs.FirstTokens
import PlcLang.Proofs.ParserTakes
import PlcLang.Proofs.ExpressionTakes
import PlcLang.Proofs.ProgramTakes
import PlcLang.Proofs.GrammarDepth
import PlcLang.Proofs.ParserDepth
import PlcLang.Proofs.DerivedTrees
import PlcLang.Proofs.ReadableLiterals
import PlcLang.Proofs.ParserExact
import PlcLang.Proofs.SourceErrors
import PlcLang.Proofs.JavaTotal
import PlcLang.Proofs.ListLengths
import PlcLang.Proofs.Rendering
import PlcLang.Proofs.PartialOperations
import PlcLang.Proofs.PipelineErrors
import PlcLang.Proofs.JavaReading
import PlcLang.Proofs.Relabeling
import PlcLang.Proofs.ParserRelabeling
import PlcLang.Proofs.ContextRelabeling
import PlcLang.Proofs.CheckerRelabeling
import PlcLang.Proofs.StoreRelabeling
import PlcLang.Proofs.RunRelabeling
import PlcLang.Proofs.JavaRelabeling
import PlcLang.Proofs.Layout
import PlcLang.Proofs.FunctionOrder
import PlcLang.Proofs.ScopeContracts
import PlcLang.Proofs.NewNames
import PlcLang.Proofs.StepEffects
import PlcLang.Proofs.Persistence
import PlcLang.Proofs.ScopeFrame
import PlcLang.Proofs.FrameLaw
import PlcLang.Proofs.TreeNodes
import PlcLang.Proofs.BindingRules
import PlcLang.Proofs.CheckedTrees
import PlcLang.Proofs.FilledTrees
import PlcLang.Proofs.TokenSpans
import PlcLang.Proofs.ErrorOffsets
import PlcLang.Proofs.RunNodes
import PlcLang.Proofs.TokenOffsets
import PlcLang.Proofs.DecimalScale
import PlcLang.Proofs.RunValues
import PlcLang.Proofs.RunDecimals
import PlcLang.Proofs.ConstantGlobals
import PlcLang.Proofs.Division
import PlcLang.Proofs.ExactDecimals
import PlcLang.Proofs.LiteralTexts
import PlcLang.Proofs.NumberTexts
import PlcLang.Proofs.PrintedLines
import PlcLang.Proofs.CommandPhases
import PlcLang.Proofs.ValueEquality
import PlcLang.Proofs.BrokenLexemes
import PlcLang.Proofs.MalformedTexts
import PlcLang.Proofs.SeparatedTexts
import PlcLang.Proofs.LexicalScopes
import PlcLang.Proofs.ListWrites
import PlcLang.Proofs.JavaNames
import PlcLang.Proofs.JavaEmitter
import PlcLang.Proofs.JavaTexts
import PlcLang.Proofs.JavaBlocks
import PlcLang.Proofs.CursorWindows
import PlcLang.Proofs.EndTokens
