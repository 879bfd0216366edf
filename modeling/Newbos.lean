import Newbos.Library.Loop
import Newbos.Library.Numbering
import Newbos.Machine
import Newbos.Frames.Safety
import Newbos.Frames.Search
import Newbos.Frames.Index
import Newbos.Frames.Multiboot
import Newbos.Paging.Boot
import Newbos.Paging.KernelTable
import Newbos.Paging.Coherence
import Newbos.Paging.MapCalls
import Newbos.Paging.Rights
import Newbos.Paging.Loading
import Newbos.Paging.Unmapping
import Newbos.Paging.UnmapRange
import Newbos.Paging.Window
import Newbos.Paging.Spaces
import Newbos.Paging.CreateEffects
import Newbos.Paging.UserSpace
import Newbos.Paging.Bitmap
import Newbos.Paging.BitmapFrames
import Newbos.Heap.Coalescing
import Newbos.Heap.Requests
import Newbos.Process.Scheduler
import Newbos.Process.Dispatch
import Newbos.Process.Pids
import Newbos.Process.Spaces
import Newbos.Process.HeapPages
import Newbos.Process.Growth
import Newbos.Process.Protection
import Newbos.Process.Isolation
import Newbos.Process.Initialised
import Newbos.Process.Release
import Newbos.Interrupts.Stubs
import Newbos.Interrupts.Transparency
import Newbos.Process.Restore
import Newbos.Tty.Refinement
import Newbos.Tty.Output
import Newbos.Tty.Printk
import Newbos.Tty.Keyboard
import Newbos.Strings
import Newbos.Kernel.Start
import Newbos.Segments.TaskState
import Newbos.Process.UserMode
import Newbos.Interrupts.Drivers
import Newbos.Interrupts.Exceptions
import Newbos.Kernel.HeapMemory
import Newbos.Kernel.Processes
import Newbos.Kernel.Windows
