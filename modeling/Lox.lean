import Lox.Access
import Lox.Main
import Lox.Proofs.Grammar.Reading
import Lox.Proofs.Simulation.Program
import Lox.Proofs.Scoping.Lookup
import Lox.Proofs.Scoping.Renames
import Lox.Proofs.Source.Stream
import Lox.Tree.Document
import Lox.Tree.Form
import Lox.Proofs.Session.History
import Lox.Proofs.Grammar.Respelling
import Lox.Proofs.Grammar.Locality
import Lox.Proofs.Session.Renaming
import Lox.Proofs.Session.Rejection
import Lox.Proofs.Session.Joining
import Lox.Proofs.Session.Resolution
import Lox.Proofs.Session.Status
import Lox.Proofs.Session.Printing
import Lox.Proofs.Source.Respelling
import Lox.Proofs.Evaluation.Likeness
import Lox.Proofs.Number.Bits
import Lox.Proofs.Number.RoundTrip
import Lox.Proofs.Source.Printed
import Lox.Proofs.Source.Reprint
import Lox.Proofs.Grammar.Violations
import Lox.Proofs.Grammar.Semicolon
import Lox.Proofs.Scoping.Places
import Lox.Proofs.Scoping.WellScoped
import Lox.Proofs.Source.Lexicon
import Lox.Proofs.Source.MaximalMunch
import Lox.Proofs.Source.Spaced
import Lox.Proofs.Session.Construction
import Lox.Proofs.Session.Located
import Lox.Proofs.Session.Return
import Lox.Proofs.Session.Receiver
import Lox.Proofs.Session.ForLoop
import Lox.Proofs.Scopes.Access
import Lox.Proofs.Grammar.Total
import Lox.Proofs.Session.Frame
import Lox.Proofs.Source.Resuming
import Lox.Proofs.Source.Numeral
import Lox.Proofs.Session.Lines
import Lox.Proofs.Session.Property
import Lox.Proofs.Source.Literal
import Lox.Proofs.Session.Walker
import Lox.Proofs.Session.Entries
import Lox.Proofs.Session.Life
