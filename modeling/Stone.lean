import Stone.Main
import Stone.Proofs.Derivation
import Stone.Proofs.Replay
import Stone.Proofs.Rules
import Stone.Proofs.Shape
import Stone.Proofs.Lines
import Stone.Proofs.Scan
import Stone.Proofs.Safety
import Stone.Proofs.Alike
import Stone.Proofs.Simulation
import Stone.Proofs.Scopes
import Stone.Proofs.Invariant
import Stone.Proofs.Isolation
import Stone.Proofs.Binders
import Stone.Proofs.Scoping
import Stone.Proofs.LineFed
import Stone.Proofs.Ahead
import Stone.Proofs.Fate
import Stone.Proofs.Closing
import Stone.Proofs.Lexemes
import Stone.Proofs.Completable
import Stone.Proofs.Relined
import Stone.Proofs.Composition
import Stone.Proofs.Merged
import Stone.Proofs.Reread
import Stone.Proofs.Rendered
import Stone.Proofs.RoundTrip
import Stone.Proofs.TooDeep
import Stone.Proofs.Refusal
import Stone.Proofs.Lookahead
import Stone.Proofs.ViablePrefix
import Stone.Proofs.Progress
import Stone.Proofs.Lifted
import Stone.Proofs.Levels
import Stone.Proofs.Documented
import Stone.Proofs.Reading
import Stone.Proofs.Accepted
import Stone.Proofs.OperatorTree
import Stone.Proofs.Termination
import Stone.Proofs.Height
import Stone.Proofs.Prediction
import Stone.Proofs.Content
import Stone.Proofs.Interleaving
import Stone.Proofs.Sight
import Stone.Proofs.Account
import Stone.Proofs.Comparison
import Stone.Proofs.Separators
import Stone.Proofs.Insertion
import Stone.Proofs.LateChoice
import Stone.Proofs.Extent
import Stone.Proofs.Pattern
import Stone.Proofs.Pieces
import Stone.Proofs.Rescan
import Stone.Proofs.Resolution
import Stone.Proofs.Cells
import Stone.Proofs.Machine
import Stone.Proofs.Counting
import Stone.Proofs.Blame
import Stone.Proofs.Numerals
import Stone.Proofs.WholeNumbers
import Stone.Proofs.JsonReader
import Stone.Proofs.Decoding
import Stone.Proofs.Forms
import Stone.Proofs.Likeness
import Stone.Proofs.Meaning
import Stone.Proofs.Pairing
import Stone.Proofs.Bisimulation
