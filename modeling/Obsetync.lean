import Obsetync.Merge.Safety
import Obsetync.TreeV1.UpdateLimit
import Obsetync.TreeV1.RootHash
import Obsetync.Sequence.Allocator
import Obsetync.Devices.Revocation
import Obsetync.DataLane.Runs
import Obsetync.TextNeutral
import Obsetync.Pull.Resume
import Obsetync.Journal.Acknowledge
import Obsetync.GlobLanguage
import Obsetync.Writer.Reservations
import Obsetync.Writer.Fairness
import Obsetync.Chunker
import Obsetync.Guard
import Obsetync.TreeV2.RootCodec
import Obsetync.TreeV2.Reachability
import Obsetync.RootOutcome
import Obsetync.ChunkStore
import Obsetync.HeadPublication
import Obsetync.DataLane.Fragmentation
import Obsetync.DiffPage.Exchange
import Obsetync.Pack.Store
import Obsetync.PathIndex
import Obsetync.PathAgreement
import Obsetync.FileSafety
import Obsetync.Crdt
import Obsetync.TreeV2.Cuts
import Obsetync.RootBatchBytes
import Obsetync.Pull.Target
import Obsetync.TreeV2.Collection
