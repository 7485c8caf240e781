import TurtleGrammar.Description.Reading
import TurtleGrammar.Plane.Fit
import TurtleGrammar.Proofs.Afresh
import TurtleGrammar.Proofs.Caps
import TurtleGrammar.Proofs.Connected
import TurtleGrammar.Proofs.Drafts
import TurtleGrammar.Proofs.EdgeLog
import TurtleGrammar.Proofs.Format
import TurtleGrammar.Proofs.Gains
import TurtleGrammar.Proofs.Forms
import TurtleGrammar.Proofs.Tokens
import TurtleGrammar.Proofs.Trail
import TurtleGrammar.Proofs.Brackets
import TurtleGrammar.Proofs.Branches
import TurtleGrammar.Proofs.Held
import TurtleGrammar.Proofs.Origins
import TurtleGrammar.Proofs.LineOrder
import TurtleGrammar.Proofs.Canonical
import TurtleGrammar.Proofs.FloatOrder
import TurtleGrammar.Proofs.Grid
import TurtleGrammar.Proofs.Nesting
import TurtleGrammar.Proofs.Faults
import TurtleGrammar.Proofs.Refusals
import TurtleGrammar.Proofs.Decomposition
import TurtleGrammar.Proofs.Siblings
import TurtleGrammar.Proofs.Walker
import TurtleGrammar.Proofs.Exact
import TurtleGrammar.Proofs.Bounds
import TurtleGrammar.Proofs.Fitting
import TurtleGrammar.Proofs.Tallies
import TurtleGrammar.Proofs.Population
import TurtleGrammar.Proofs.Catalog
import TurtleGrammar.Proofs.Extremes
import TurtleGrammar.Proofs.Relisting
import TurtleGrammar.Proofs.Occurring
import TurtleGrammar.Proofs.Prediction
import TurtleGrammar.Proofs.Merging
import TurtleGrammar.Proofs.Roots
import TurtleGrammar.Proofs.Pruning
import TurtleGrammar.Proofs.Signs
import TurtleGrammar.Proofs.Scaling
import TurtleGrammar.Proofs.Layout
import TurtleGrammar.Proofs.Expectations
import TurtleGrammar.Proofs.Lengthening
import TurtleGrammar.Proofs.Building
import TurtleGrammar.Proofs.PlainWords
