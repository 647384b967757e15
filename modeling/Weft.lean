import Weft.Main
import Weft.Proofs.Analysis.Hierarchies
import Weft.Proofs.Analysis.ScopedUnits
import Weft.Proofs.Analysis.Updates
import Weft.Proofs.Build.FunctionKeys
import Weft.Proofs.Build.Scanned
import Weft.Proofs.Bytecode.Balance
import Weft.Proofs.Bytecode.CallOperands
import Weft.Proofs.Bytecode.Images
import Weft.Proofs.Bytecode.Lines
import Weft.Proofs.Bytecode.Meaning
import Weft.Proofs.Bytecode.Pools
import Weft.Proofs.Directive.Nesting
import Weft.Proofs.Manifest.Resolution
import Weft.Proofs.Renaming.Orders
import Weft.Proofs.Tree.Operators
