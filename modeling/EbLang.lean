import EbLang.Main
import EbLang.Tree.Outline
import EbLang.Proofs.Execution.Order
import EbLang.Proofs.Flow.Returns
import EbLang.Proofs.Includes
import EbLang.Proofs.Formulas.Legible
import EbLang.Proofs.Annotation.Modules
import EbLang.Proofs.Reordering
import EbLang.Proofs.Constants
import EbLang.Proofs.Hoistable
import EbLang.Proofs.Execution.Guards
import EbLang.Proofs.Structs.Filling
import EbLang.Proofs.Sidecar.Prefixes
import EbLang.Proofs.Literals
import EbLang.Proofs.Respacing
import EbLang.Proofs.Excerpts
import EbLang.Proofs.Rounds
import EbLang.Proofs.Overloads.Deferral
