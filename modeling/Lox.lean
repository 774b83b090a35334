import Lox.Main
import Lox.Proofs.Config.Discovery
import Lox.Proofs.Config.Validation
import Lox.Proofs.Files.Search
import Lox.Proofs.Grammar.Canonical
import Lox.Proofs.Grammar.Discipline
import Lox.Proofs.Grammar.Recovery
import Lox.Proofs.Machine.Ahead
import Lox.Proofs.Machine.Bound
import Lox.Proofs.Machine.Dispatch
import Lox.Proofs.Machine.Jumps
import Lox.Proofs.Machine.Safety
import Lox.Proofs.Machine.Succession
import Lox.Proofs.Scope.Lexical
import Lox.Proofs.Scope.WellFormed
import Lox.Proofs.Session.Composition
import Lox.Proofs.Session.ExitStatus
import Lox.Proofs.Session.Prompt
import Lox.Proofs.Source.Spacing
import Lox.Proofs.Store.Environment
import Lox.Proofs.Store.Metaclass
import Lox.Proofs.Tree.Reading
