import Metrology.Binary64.Encoding
import Metrology.Tree.Build
import Metrology.Value.Stored
import Metrology.Evaluation.Scope
import Metrology.Evaluation.Loop
import Metrology.Proofs.Channels.Noninterference
import Metrology.Proofs.Accesses
import Metrology.Proofs.Interrupts
import Metrology.Proofs.DepthLimit
import Metrology.Proofs.Spans.Erasure
import Metrology.Proofs.Spans.Places
import Metrology.Proofs.EntryPoints
import Metrology.Proofs.ScopeEffects
import Metrology.Proofs.ScopeStack
import Metrology.Proofs.HostLoops
import Metrology.Proofs.Rewriting.IdleTokens
import Metrology.Proofs.Rewriting.Nesting
import Metrology.Proofs.Channels.NotBelowZero
import Metrology.Proofs.WellBuilt
import Metrology.Proofs.Causes
import Metrology.Proofs.DepthCounter
import Metrology.Proofs.Nearest
import Metrology.Proofs.Decimals
import Metrology.Proofs.Angles
import Metrology.Proofs.Magnitudes
import Metrology.Proofs.Display.Rounding
import Metrology.Proofs.Display.Shortest
import Metrology.Proofs.Display.Numerals
import Metrology.Proofs.Display.Parts
import Metrology.Proofs.Display.Places
import Metrology.Proofs.SharedPayloads
import Metrology.Proofs.Calls
import Metrology.Proofs.WholeNumbers
import Metrology.Proofs.Exponents
import Metrology.Proofs.RepeatedReadings
import Metrology.Proofs.Negation
import Metrology.Proofs.Symmetry
import Metrology.Proofs.Teardown
