import ConstLang.Main
import ConstLang.Session
import ConstLang.Proofs.Token.Refusal
import ConstLang.Proofs.Places
import ConstLang.Proofs.Evaluation.Inlining
import ConstLang.Proofs.Evaluation.Strictness
import ConstLang.Proofs.Json.RoundTrip
import ConstLang.Proofs.Relocation
import ConstLang.Proofs.Spacing
import ConstLang.Proofs.Prepending
import ConstLang.Proofs.Provenance
import ConstLang.Proofs.Printing
import ConstLang.Proofs.Evaluation.Depth
import ConstLang.Proofs.Json.Recursion
import ConstLang.Proofs.Nesting
import ConstLang.Proofs.Evaluation.Checks
import ConstLang.Proofs.Evaluation.Reordering
import ConstLang.Proofs.Evaluation.Constants
import ConstLang.Proofs.Evaluation.Fields
import ConstLang.Proofs.Evaluation.Removal
import ConstLang.Proofs.Evaluation.Renaming
import ConstLang.Proofs.Command
import ConstLang.Proofs.Excerpt
import ConstLang.Proofs.Program.Demands
import ConstLang.Proofs.Json.Indentation
import ConstLang.Proofs.Token.Stepping
import ConstLang.Proofs.Json.Numbers
import ConstLang.Proofs.Equality
import ConstLang.Proofs.Program.Sequence
import ConstLang.Proofs.Descent
import ConstLang.Proofs.Descent.Progress
