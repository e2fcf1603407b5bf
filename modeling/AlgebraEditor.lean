import AlgebraEditor.Main
import AlgebraEditor.Diagnostic.Derivation
import AlgebraEditor.Proofs.Action
import AlgebraEditor.Proofs.Arena.Careful
import AlgebraEditor.Proofs.Formula.Blame
import AlgebraEditor.Proofs.Formula.Reading
import AlgebraEditor.Proofs.Formula.RoundTrip
import AlgebraEditor.Proofs.Session.Runs
import AlgebraEditor.Proofs.Selection.Focus
import AlgebraEditor.Proofs.Selection.Growing
import AlgebraEditor.Proofs.Law.Extracting
import AlgebraEditor.Proofs.Law.Focusing
import AlgebraEditor.Proofs.Law.Quiet
import AlgebraEditor.Proofs.Session.Focus
import AlgebraEditor.Proofs.Arena.Grouping
import AlgebraEditor.Proofs.Arena.Guarding
import AlgebraEditor.Proofs.Law.Distributing
import AlgebraEditor.Proofs.Console.Marked
import AlgebraEditor.Proofs.Console.MarkedRoundTrip
import AlgebraEditor.Proofs.Console.Printers
import AlgebraEditor.Proofs.Session.Selecting
import AlgebraEditor.Proofs.Session.Unparsed
import AlgebraEditor.Proofs.Session.Walking
import AlgebraEditor.Proofs.Arena.Splicing
import AlgebraEditor.Proofs.Law.Locality
import AlgebraEditor.Proofs.Arena.Copying
import AlgebraEditor.Proofs.Law.Broadcasting
import AlgebraEditor.Proofs.Session.Editing
import AlgebraEditor.Proofs.Arena.PreOrder
import AlgebraEditor.Proofs.Session.Sweeping
import AlgebraEditor.Proofs.Formula.Layout
import AlgebraEditor.Proofs.Formula.Munching
import AlgebraEditor.Proofs.Console.Reports
import AlgebraEditor.Proofs.Console.Suggestions
import AlgebraEditor.Proofs.Session.Arrows
import AlgebraEditor.Proofs.Arena.Refilling
