import ValueSep.DiffKV.KeyBounds
import ValueSep.DiffKV.LastWrite
import ValueSep.DiffKV.GcFinish
import ValueSep.DiffKV.GcRelocate
import ValueSep.DiffKV.Crash
import ValueSep.DiffKV.MergeIterator
import ValueSep.DiffKV.Purge
import ValueSep.DiffKV.Lifetime
import ValueSep.DiffKV.Reopen
import ValueSep.DiffKV.Lookup
import ValueSep.DiffKV.Accounting
import ValueSep.DiffKV.RangeDeletion
import ValueSep.DiffKV.TableMeaning
import ValueSep.DiffKV.Replay
import ValueSep.DiffKV.CompactionDeletes
import ValueSep.DiffKV.DbIter
import ValueSep.DiffKV.Traversal
import ValueSep.DiffKV.Scan
import ValueSep.DiffKV.BlobFile
import ValueSep.DiffKV.Checksum
import ValueSep.DiffKV.StorageIndex
import ValueSep.DiffKV.FileStates
import ValueSep.HashKV.Basic
import ValueSep.HashKV.Flush
import ValueSep.HashKV.Gc
import ValueSep.HashKV.Server
import ValueSep.HashKV.Placement
import ValueSep.HashKV.Packing
import ValueSep.HashKV.Record
import ValueSep.HashKV.Layout
import ValueSep.HashKV.WriteBuffer
import ValueSep.HashKV.Tree
import ValueSep.HashKV.Pooled
import ValueSep.HashKV.Room
import ValueSep.HashKV.Flushing
import ValueSep.HashKV.Linked
import ValueSep.HashKV.Scan
import ValueSep.HashKV.Collecting
import ValueSep.HashKV.Represent
import ValueSep.HashKV.Putting
import ValueSep.HashKV.Calls
import ValueSep.HashKV.Waiting
import ValueSep.HashKV.Retrying
import ValueSep.HashKV.BitMap
import ValueSep.HashKV.SegmentTable
import ValueSep.HashKV.Allocation
import ValueSep.HashKV.Device
import ValueSep.HashKV.VLog
import ValueSep.HashKV.TreeKeys
import ValueSep.HashKV.RangeScan
import ValueSep.HashKV.KeyCache
import ValueSep.DiffKV.EditCodec
import ValueSep.DiffKV.GcPicker
import ValueSep.DiffKV.IndexedFileSet
import ValueSep.DiffKV.RangeFiles
import ValueSep.DiffKV.DroppedFiles
import ValueSep.DiffKV.Abandon
import ValueSep.DiffKV.Builders
import ValueSep.DiffKV.Batching
import ValueSep.DiffKV.WriteStall
import ValueSep.DiffKV.GcSchedule
import ValueSep.DiffKV.RangeMerge
