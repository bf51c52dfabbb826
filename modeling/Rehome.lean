import Rehome.Host.ReadBack
import Rehome.Path.NormalForm
import Rehome.Session.Start
import Rehome.Session.Step
import Rehome.Proofs.Path.Absolute
import Rehome.Proofs.Path.Route
import Rehome.Proofs.Rpath.Denotation
import Rehome.Proofs.Relocation.SearchedPlaces
import Rehome.Proofs.Data.Repetition
import Rehome.Proofs.Path.Below
import Rehome.Proofs.Relocation.MovedTree
import Rehome.Proofs.Relocation.Checks
import Rehome.Proofs.Relocation.Course
import Rehome.Proofs.Relocation.Outcome
import Rehome.Proofs.Relocation.Refusal
import Rehome.Proofs.Relocation.FailedRead
import Rehome.Proofs.Rpath.FixedPoint
import Rehome.Proofs.Relocation.Repetitions
import Rehome.Proofs.Relocation.Stored
import Rehome.Proofs.Relocation.SecondRun
import Rehome.Proofs.Binary.Occurrence
import Rehome.Proofs.Binary.Stringwise
import Rehome.Proofs.Path.Clean
import Rehome.Proofs.Relocation.ReadBack
import Rehome.Proofs.Binary.Movable
import Rehome.Proofs.Relocation.Accounts
import Rehome.Proofs.Tool.Lifetime
import Rehome.Proofs.Relocation.Agreement
import Rehome.Proofs.Relocation.OldRoot
import Rehome.Proofs.Relocation.Settling
import Rehome.Proofs.Rpath.Tidy
import Rehome.Proofs.Binary.OwnSearchPath
import Rehome.Proofs.Rpath.LongestPrefix
import Rehome.Proofs.Rpath.Recoverable
import Rehome.Proofs.Rpath.RoundTrip
import Rehome.Proofs.Binary.RootSpelling
import Rehome.Proofs.Rpath.Composition
import Rehome.Proofs.Path.Canonical
import Rehome.Proofs.Binary.AllOrNothing
import Rehome.Proofs.Binary.NothingLeft
import Rehome.Proofs.Relocation.Reversal
import Rehome.Proofs.Rpath.Expansion
import Rehome.Proofs.Tool.Probes
import Rehome.Proofs.Tool.RootedFindings
import Rehome.Proofs.Binary.MoreRoots
import Rehome.Proofs.Data.InsertionOrder
import Rehome.Proofs.Rpath.SearchOrder
import Rehome.Proofs.Binary.Sweep
import Rehome.Proofs.Binary.RunOffsets
import Rehome.Proofs.Relocation.Transcription
