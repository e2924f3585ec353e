import Kaleidoscope.Main
import Kaleidoscope.Proofs.Engine.Extending
import Kaleidoscope.Proofs.Engine.Reaching
import Kaleidoscope.Proofs.Lowering.Closing
import Kaleidoscope.Proofs.Lowering.Labelling
import Kaleidoscope.Proofs.Lowering.Refusing
import Kaleidoscope.Proofs.Lowering.Termination
import Kaleidoscope.Proofs.Reading.Continuing
import Kaleidoscope.Proofs.Reading.Delimiters
import Kaleidoscope.Proofs.Reading.Grammar
import Kaleidoscope.Proofs.Reading.Lexemes
import Kaleidoscope.Proofs.Session.Composition
import Kaleidoscope.Proofs.Session.Correctness
import Kaleidoscope.Proofs.Session.Naming
import Kaleidoscope.Proofs.Session.Progress
import Kaleidoscope.Proofs.Session.Safety
import Kaleidoscope.Proofs.Session.Stability
import Kaleidoscope.Proofs.Ssa.Constructing
import Kaleidoscope.Proofs.Ssa.Refolding
