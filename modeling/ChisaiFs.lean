import ChisaiFs.Library.Outcome
import ChisaiFs.Library.Cells
import ChisaiFs.Library.Codec
import ChisaiFs.Library.Words
import ChisaiFs.Library.Ownership
import ChisaiFs.AllocatorLaw
import ChisaiFs.Append
import ChisaiFs.Remount
import ChisaiFs.Counters
import ChisaiFs.Truncation
import ChisaiFs.Indexes
import ChisaiFs.Limit
import ChisaiFs.Regions
import ChisaiFs.FirstMount
import ChisaiFs.Rename
import ChisaiFs.Removal
import ChisaiFs.Listing
import ChisaiFs.BitvecViews
import ChisaiFs.DirMap
import ChisaiFs.Enumeration
import ChisaiFs.Addressing
import ChisaiFs.Chunks
import ChisaiFs.Updates
import ChisaiFs.FreeSpace
import ChisaiFs.Stateless
import ChisaiFs.Streams
import ChisaiFs.Leaks
import ChisaiFs.FileStore
import ChisaiFs.Recut
import ChisaiFs.FileServer
import ChisaiFs.Lifecycle
import ChisaiFs.Memory
