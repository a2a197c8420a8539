import ScriptTyping.Text.Ranges
import ScriptTyping.Text.Blank
import ScriptTyping.Text.Identifier
import ScriptTyping.Text.Printable
import ScriptTyping.Text.Quoted
import ScriptTyping.Token
import ScriptTyping.Token.Lexer
import ScriptTyping.Syntax.TypeExpr
import ScriptTyping.Syntax.Node
import ScriptTyping.Syntax.Printer
import ScriptTyping.Syntax.Walk
import ScriptTyping.Syntax.Stream
import ScriptTyping.Syntax.Grammar
import ScriptTyping.Dict
import ScriptTyping.Shelf.Rows
import ScriptTyping.Shelf
import ScriptTyping.Ty.Class
import ScriptTyping.Ty.Basic
import ScriptTyping.Ty.Attachments
import ScriptTyping.Ty.Vars
import ScriptTyping.Ty.Subst
import ScriptTyping.Ty.Order
import ScriptTyping.Ty.Equal
import ScriptTyping.Ty.Printer
import ScriptTyping.Unify.Basic
import ScriptTyping.Unify.Measure
import ScriptTyping.Unify
import ScriptTyping.Scheme
import ScriptTyping.Scope
import ScriptTyping.Membership
import ScriptTyping.Solve
import ScriptTyping.Check.Error
import ScriptTyping.Check.Inference
import ScriptTyping.Check.Resolve
import ScriptTyping.Check.Infer
import ScriptTyping.Builtin
import ScriptTyping.Checker
import ScriptTyping.Yaml
import ScriptTyping.Yaml.Scalar
import ScriptTyping.Yaml.Token
import ScriptTyping.Yaml.Value
import ScriptTyping.Builtin.Document
import ScriptTyping.Command
import ScriptTyping.Main
import ScriptTyping.Ty.Tail
import ScriptTyping.Proofs.Instance
import ScriptTyping.Proofs.Matching
import ScriptTyping.Proofs.Course
import ScriptTyping.Proofs.MostGeneral
import ScriptTyping.Proofs.GeneralSolutions
import ScriptTyping.Proofs.Running
import ScriptTyping.Proofs.Annotations
import ScriptTyping.Proofs.CheckSound
import ScriptTyping.Proofs.CoreInference
import ScriptTyping.Proofs.Refresh
import ScriptTyping.Proofs.SolvedForm
import ScriptTyping.Proofs.SettledTypes
import ScriptTyping.Proofs.Classes
import ScriptTyping.Proofs.FailedEquations
import ScriptTyping.Proofs.InferOwned
import ScriptTyping.Proofs.Reachable
import ScriptTyping.Proofs.Operators
import ScriptTyping.Proofs.Principal
import ScriptTyping.Proofs.EquationOrder
import ScriptTyping.Proofs.NestedStructs
import ScriptTyping.Proofs.RenumberedInference
import ScriptTyping.Proofs.StructScoping
import ScriptTyping.Proofs.RenumberedSolving
import ScriptTyping.Proofs.History
import ScriptTyping.Proofs.Signatures
import ScriptTyping.Proofs.VisitOrder
import ScriptTyping.Proofs.Isolation
import ScriptTyping.Proofs.Grouping
import ScriptTyping.Proofs.NothingBound
import ScriptTyping.Proofs.Symmetry
import ScriptTyping.Proofs.Tiling
import ScriptTyping.Proofs.LexicalScopes
import ScriptTyping.Proofs.VariableTypes
import ScriptTyping.Proofs.InferLogic
import ScriptTyping.Proofs.Termination
import ScriptTyping.Proofs.Precedence
import ScriptTyping.Proofs.TypeTexts
import ScriptTyping.Proofs.FreshInstances
import ScriptTyping.Proofs.LexerCalls
import ScriptTyping.Proofs.Respacing
import ScriptTyping.Proofs.QuotedTexts
import ScriptTyping.Proofs.SubstitutionLaws
