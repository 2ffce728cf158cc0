import Loom.Script.Host
import Loom.Proofs.Coordinates
import Loom.Proofs.Dialect.Lexical
import Loom.Proofs.Dialect.Undeclare
import Loom.Proofs.Draft.Verbatim
import Loom.Proofs.Restore.Preorder
import Loom.Proofs.Restore.Scaffolding
import Loom.Proofs.Restore.Span
import Loom.Proofs.Scope.Bindings
import Loom.Proofs.Scope.Catalog
import Loom.Proofs.Scope.Merged
import Loom.Proofs.Scope.VariableScope
import Loom.Proofs.Template.RoundTrip
import Loom.Proofs.Token.Respacing
import Loom.Proofs.TypeAware.Lower
import Loom.Proofs.TypeAware.Undo
import Loom.Proofs.Weave.Laminar
