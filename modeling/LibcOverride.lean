import LibcOverride.MockAllocator.Ownership
import LibcOverride.MockAllocator.Interleaving
import LibcOverride.MockAllocator.Capture
import LibcOverride.MockAllocator.Bootstrap
import LibcOverride.MockAllocator.Preservation
import LibcOverride.Scanf.EndToEnd
import LibcOverride.Scanf.EntryPoints
import LibcOverride.Scanf.Forwarding
import LibcOverride.Path.Bounds
import LibcOverride.Path.Resolved
import LibcOverride.Memstream.Lifecycle
import LibcOverride.Line.Partition
import LibcOverride.Dirent.Listing
import LibcOverride.MockAllocator.Locking
import LibcOverride.MockAllocator.Once
import LibcOverride.MockAllocator.CaptureThreads
import LibcOverride.Path.FixedPoint
import LibcOverride.Path.WorkingDirectory
import LibcOverride.Path.Tempnam
import LibcOverride.MockAllocator.SharedHeap
import LibcOverride.Scanf.RehomeRuns
import LibcOverride.Scanf.Allocator
import LibcOverride.Strings.Copies
import LibcOverride.Line.Allocator
import LibcOverride.Memstream.Allocator
import LibcOverride.Dirent.Allocator
import LibcOverride.Strings.Printf
import LibcOverride.Programs
import LibcOverride.Memstream.Amortized
import LibcOverride.Line.Amortized
import LibcOverride.Scanf.AnyFormat
import LibcOverride.Scanf.Session
