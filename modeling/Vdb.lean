import Vdb.BTree.Arena
import Vdb.BTree.Course
import Vdb.BTree.Hints
import Vdb.BTree.Quiescent
import Vdb.BTree.Represented
import Vdb.BTree.Turns
import Vdb.Database.Alignment
import Vdb.Database.Allowlist
import Vdb.Database.Exact
import Vdb.Database.Graph
import Vdb.Database.Hybrid
import Vdb.Database.Intact
import Vdb.Database.Inverted
import Vdb.Database.Mismatch
import Vdb.Database.Ranking
import Vdb.Database.Refinement
import Vdb.Database.TextSearch
import Vdb.Database.Truncated
import Vdb.Durable.Crash
import Vdb.Durable.Credited
import Vdb.Durable.Interrupted
import Vdb.Durable.Saved
import Vdb.Durable.Unopenable
import Vdb.Metadata.Accesses
import Vdb.Metadata.Statistics
import Vdb.Metadata.Tokens
import Vdb.Metadata.TreeIndex
import Vdb.Wal.Checksum
import Vdb.Wal.Failures
import Vdb.Wal.Frame
import Vdb.Wal.Stable
