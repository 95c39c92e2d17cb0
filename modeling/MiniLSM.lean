import MiniLSM.Lib.LexOrder
import MiniLSM.Lib.Leb128
import MiniLSM.Lib.Search
import MiniLSM.Lib.Merge
import MiniLSM.Lib.Transition
import MiniLSM.Lib.RefCount
import MiniLSM.Lib.Crc
import MiniLSM.Lib.Text
import MiniLSM.Lib.Monitor
import MiniLSM.Lib.Chain
import MiniLSM.Lib.Counter
import MiniLSM.Spec.Slice
import MiniLSM.Spec.Status
import MiniLSM.Spec.Coding
import MiniLSM.Spec.InternalKey
import MiniLSM.Spec.Arena
import MiniLSM.Spec.SkipList
import MiniLSM.Spec.NodeHeap
import MiniLSM.Spec.MemTable
import MiniLSM.Spec.Wal
import MiniLSM.Spec.Bloom
import MiniLSM.Spec.SSTableBuilder
import MiniLSM.Spec.SSTable
import MiniLSM.Spec.Iterator
import MiniLSM.Spec.Manifest
import MiniLSM.Spec.DB
import MiniLSM.Spec.World
import MiniLSM.Spec.Faults
import MiniLSM.Spec.LiveScan
import MiniLSM.Spec.Threads
import MiniLSM.Spec.RefCount
import MiniLSM.Spec.MemRefCount
import MiniLSM.Proof.InternalKey
import MiniLSM.Proof.Crc
import MiniLSM.Proof.Wal
import MiniLSM.Proof.Recover
import MiniLSM.Proof.LogHistory
import MiniLSM.Proof.Bloom
import MiniLSM.Proof.Builder
import MiniLSM.Proof.TableFile
import MiniLSM.Proof.TableGet
import MiniLSM.Proof.Iterator
import MiniLSM.Proof.MergeIterator
import MiniLSM.Proof.MemTable
import MiniLSM.Proof.RoundTrip
import MiniLSM.Proof.TableBurst
import MiniLSM.Proof.TableDamage
import MiniLSM.Proof.Manifest
import MiniLSM.Proof.Flush
import MiniLSM.Proof.Step
import MiniLSM.Proof.Files
import MiniLSM.Proof.Log
import MiniLSM.Proof.Ledger
import MiniLSM.Proof.Crash
import MiniLSM.Proof.Rotation
import MiniLSM.Proof.RefCount
import MiniLSM.Proof.MemRefCount
import MiniLSM.Proof.Threads
import MiniLSM.Proof.Output
import MiniLSM.Proof.Level
import MiniLSM.Proof.Inputs
import MiniLSM.Proof.Compaction
import MiniLSM.Proof.Ordered
import MiniLSM.Proof.Commit
import MiniLSM.Proof.Reading
import MiniLSM.Proof.Replacement
import MiniLSM.Proof.Latest
import MiniLSM.Proof.Scan
import MiniLSM.Proof.Versions
import MiniLSM.Proof.NodeHeap
import MiniLSM.Proof.Numbers
import MiniLSM.Proof.Faults
import MiniLSM.Proof.Faultless
import MiniLSM.Proof.Damage
import MiniLSM.Proof.LiveScan
import MiniLSM.Proof.Selection
import MiniLSM.Proof.Seek
import MiniLSM.Proof.Position
import MiniLSM.Proof.Fullness
import MiniLSM.Proof.LostLog
import MiniLSM.Spec.CompactionRun
import MiniLSM.Proof.CompactionRun
import MiniLSM.Spec.OpenDatabase
import MiniLSM.Proof.OpenDatabase
import MiniLSM.Proof.WriteFaults
import MiniLSM.Spec.AnyFile
import MiniLSM.Proof.Walk
import MiniLSM.Proof.AnyFile
import MiniLSM.Proof.Arena
import MiniLSM.Proof.SharedMemTable
import MiniLSM.Proof.LiveGet
import MiniLSM.Proof.Shutdown
import MiniLSM.Spec.FileTree
import MiniLSM.Proof.FileTree
import MiniLSM.Proof.Restart
import MiniLSM.Proof.Progress
import MiniLSM.Proof.TornWrite
import MiniLSM.Proof.Leftovers
import MiniLSM.Proof.Memory
import MiniLSM.Proof.FileIo
import MiniLSM.Proof.BlockReads
import MiniLSM.Proof.AnyLog
import MiniLSM.Proof.OutputRun
