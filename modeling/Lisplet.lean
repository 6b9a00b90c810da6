import Lisplet.Arity
import Lisplet.CommandLine
import Lisplet.Error
import Lisplet.Eval
import Lisplet.Evaluation
import Lisplet.Files
import Lisplet.Frame
import Lisplet.Listing
import Lisplet.Machine
import Lisplet.Main
import Lisplet.Parameters
import Lisplet.Primitive
import Lisplet.Primitive.Arithmetic
import Lisplet.Primitive.Call
import Lisplet.Proofs.ArityAgreement
import Lisplet.Proofs.AtomUpdate
import Lisplet.Proofs.BigStep
import Lisplet.Proofs.BigStepComplete
import Lisplet.Proofs.BigStepSound
import Lisplet.Proofs.BrokenFile
import Lisplet.Proofs.BrokenText
import Lisplet.Proofs.CallRules
import Lisplet.Proofs.Calls
import Lisplet.Proofs.ClauseOrder
import Lisplet.Proofs.Completion
import Lisplet.Proofs.CondExpansion
import Lisplet.Proofs.Conditional
import Lisplet.Proofs.Confinement
import Lisplet.Proofs.Contents
import Lisplet.Proofs.Correspondence
import Lisplet.Proofs.CorrespondingRuns
import Lisplet.Proofs.Culprits
import Lisplet.Proofs.DepthAccounting
import Lisplet.Proofs.DepthBlind
import Lisplet.Proofs.DepthLimit
import Lisplet.Proofs.Equality
import Lisplet.Proofs.ErrorContext
import Lisplet.Proofs.ErrorMessage
import Lisplet.Proofs.ExactArithmetic
import Lisplet.Proofs.Excerpts
import Lisplet.Proofs.Expansion
import Lisplet.Proofs.ExtraFrame
import Lisplet.Proofs.FailingParts
import Lisplet.Proofs.FileText
import Lisplet.Proofs.FirstForm
import Lisplet.Proofs.FramesMore
import Lisplet.Proofs.Grammar
import Lisplet.Proofs.Instantiation
import Lisplet.Proofs.Invariants
import Lisplet.Proofs.Levels
import Lisplet.Proofs.Lexical
import Lisplet.Proofs.Listings
import Lisplet.Proofs.LoadFile
import Lisplet.Proofs.Lookup
import Lisplet.Proofs.MoreText
import Lisplet.Proofs.OneDeeper
import Lisplet.Proofs.Outcome
import Lisplet.Proofs.OutsideCalls
import Lisplet.Proofs.OwnErrors
import Lisplet.Proofs.OwnRule
import Lisplet.Proofs.ParameterBinding
import Lisplet.Proofs.PlainTemplate
import Lisplet.Proofs.ReaderComplete
import Lisplet.Proofs.ReaderFailure
import Lisplet.Proofs.ReaderGrammar
import Lisplet.Proofs.ReaderProgress
import Lisplet.Proofs.ReaderSound
import Lisplet.Proofs.Rendering
import Lisplet.Proofs.Respected
import Lisplet.Proofs.RootScope
import Lisplet.Proofs.RoundTrip
import Lisplet.Proofs.ScopeHistory
import Lisplet.Proofs.SessionLines
import Lisplet.Proofs.StepParts
import Lisplet.Proofs.TailContexts
import Lisplet.Proofs.Tokens
import Lisplet.Proofs.Trampoline
import Lisplet.Proofs.WellFormed
import Lisplet.Proofs.WellScoped
import Lisplet.ReadError
import Lisplet.Reading
import Lisplet.Root
import Lisplet.Scope
import Lisplet.Session
import Lisplet.SpecialForm
import Lisplet.Template
import Lisplet.Text.Blank
import Lisplet.Text.Decimal
import Lisplet.Text.Excerpt
import Lisplet.Text.Quoted
import Lisplet.Value
import Lisplet.Value.Text
