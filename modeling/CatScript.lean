import CatScript.Code.Assembler
import CatScript.CommandLine
import CatScript.Main
import CatScript.Proofs.Typing.Judgement
import CatScript.Proofs.Typing.Scoping
import CatScript.Proofs.Typing.Soundness
import CatScript.Proofs.Token.Lossless
import CatScript.Proofs.Token.Recognised
import CatScript.Proofs.Grammar.Movement
import CatScript.Proofs.Grammar.Progress
import CatScript.Proofs.Grammar.Names
import CatScript.Proofs.Grammar.Sentences
import CatScript.Proofs.Grammar.Facing
import CatScript.Proofs.Grammar.Accepted
import CatScript.Proofs.Grammar.Readable
import CatScript.Proofs.Grammar.Recognition
import CatScript.Proofs.Grammar.Spelling
import CatScript.Proofs.Typing.Symbols
import CatScript.Proofs.Typing.Checked
import CatScript.Proofs.Typing.Annotations
import CatScript.Proofs.Typing.Findings
import CatScript.Proofs.Typing.Noninterference
import CatScript.Proofs.Typing.Calls
import CatScript.Proofs.Typing.Probe
import CatScript.Proofs.Typing.Occurrences
import CatScript.Proofs.Typing.Origins
import CatScript.Proofs.Typing.Sited
import CatScript.Proofs.Code.Layouts
import CatScript.Proofs.Code.Lowering
import CatScript.Proofs.Code.WellFormed
import CatScript.Proofs.Code.Methods
import CatScript.Proofs.Code.Tracked
import CatScript.Proofs.Code.Resolution
import CatScript.Proofs.Eval.Watch
import CatScript.Proofs.Eval.Mirror
import CatScript.Proofs.Eval.Inhabits
import CatScript.Proofs.Eval.Scenes
import CatScript.Proofs.Eval.TypeSafety
import CatScript.Proofs.Eval.Ledger
import CatScript.Proofs.Eval.Erasure
import CatScript.Proofs.Eval.Reach
import CatScript.Proofs.Eval.StaticScoping
import CatScript.Proofs.Code.Plan
import CatScript.Proofs.Code.Charts
import CatScript.Proofs.Code.Verified
import CatScript.Proofs.StackMachine.StackSafety
import CatScript.Proofs.Code.Matched
import CatScript.Proofs.Code.Shows
import CatScript.Proofs.Code.Statements
import CatScript.Proofs.Code.Correct
import CatScript.Proofs.Code.Agreement
import CatScript.Proofs.Code.Unset
import CatScript.Proofs.Grammar.Precedence
import CatScript.Proofs.Grammar.Coverage
import CatScript.Proofs.Grammar.Spans
import CatScript.Proofs.Grammar.Locality
import CatScript.Proofs.Grammar.Recovery
import CatScript.Proofs.Grammar.Relocation
import CatScript.Proofs.Grammar.Places
import CatScript.Proofs.Grammar.Layout
import CatScript.Proofs.Grammar.Extension
import CatScript.Proofs.Grammar.Concatenation
import CatScript.Proofs.Grammar.TypeNames
import CatScript.Proofs.JavaScript.Scopes
import CatScript.Proofs.JavaScript.Shadowing
import CatScript.Proofs.Typing.Discipline
import CatScript.Proofs.Eval.Frames
import CatScript.Proofs.JavaScript.Lexeme
import CatScript.Proofs.JavaScript.Tree
import CatScript.Proofs.JavaScript.Meaning
import CatScript.Proofs.JavaScript.ReadBack
import CatScript.Proofs.Typing.Renaming
import CatScript.Proofs.Eval.Renaming
import CatScript.Proofs.Eval.Reordering
import CatScript.Proofs.Eval.Printed
import CatScript.Proofs.Token.Literals
import CatScript.Proofs.Text.Lines
import CatScript.Proofs.Code.Labels
import CatScript.Proofs.Code.Writing
import CatScript.Proofs.JavaScript.Sources
import CatScript.Proofs.JavaScript.Blocks
import CatScript.Proofs.JavaScript.Printing
import CatScript.Proofs.JavaScript.Nesting
import CatScript.Proofs.Token.Streams
import CatScript.Proofs.Grammar.Anchors
import CatScript.Proofs.Typing.Anchors
import CatScript.Proofs.Diagnostic.Caret
