import Shipwreck.Lib.Ancestors
import Shipwreck.Lib.Bytes
import Shipwreck.Lib.CInt
import Shipwreck.Lib.Chain
import Shipwreck.Lib.DList
import Shipwreck.Lib.Extent
import Shipwreck.Lib.Footprint
import Shipwreck.Lib.Lanes
import Shipwreck.Lib.Numeral
import Shipwreck.Lib.Paint
import Shipwreck.Lib.Refines
import Shipwreck.Lib.Remainder
import Shipwreck.Lib.Repair
import Shipwreck.Lib.Retouch
import Shipwreck.Lib.RingBuffer
import Shipwreck.Lib.Transition
import Shipwreck.Lib.Walk
import Shipwreck.Lib.Words
import Shipwreck.Queue.Basic
import Shipwreck.Queue.Concurrent
import Shipwreck.Queue.Construction
import Shipwreck.Queue.Invariant
import Shipwreck.Queue.MsgQueue
import Shipwreck.Queue.Sequential
import Shipwreck.Queue.Torn
import Shipwreck.Queue.Wrap
import Shipwreck.Kernel.Counter
import Shipwreck.Kernel.Events
import Shipwreck.Kernel.Locks
import Shipwreck.Kernel.Monitors
import Shipwreck.Kernel.Print
import Shipwreck.Kernel.Process
import Shipwreck.Kernel.RoundRobin
import Shipwreck.Kernel.Scheduler
import Shipwreck.Kernel.Subscriptions
import Shipwreck.Kernel.Syscall
import Shipwreck.Memory.AddLimit
import Shipwreck.Memory.Allocation
import Shipwreck.Memory.BitAllocator
import Shipwreck.Memory.Bitset
import Shipwreck.Memory.Boot
import Shipwreck.Memory.Frames
import Shipwreck.Memory.Mapping
import Shipwreck.Memory.PageRange
import Shipwreck.Memory.Paging
import Shipwreck.Memory.Pool
import Shipwreck.Memory.Processes
import Shipwreck.Memory.Reserve
import Shipwreck.Memory.Rights
import Shipwreck.Storage.Archive
import Shipwreck.Storage.Binding
import Shipwreck.Storage.BootLoad
import Shipwreck.Storage.DirectoryWalk
import Shipwreck.Storage.Elf
import Shipwreck.Storage.FileService
import Shipwreck.Storage.Geometry
import Shipwreck.Storage.Handles
import Shipwreck.Storage.Lookup
import Shipwreck.Storage.ReadBounds
import Shipwreck.Storage.Relocation
import Shipwreck.Storage.SharedObject
import Shipwreck.Storage.Strings
import Shipwreck.Storage.Symbols
import Shipwreck.Storage.TarFile
import Shipwreck.Input.Drag
import Shipwreck.Input.Keyboard
import Shipwreck.Input.Mouse
import Shipwreck.Input.Packets
import Shipwreck.Gui.Blend
import Shipwreck.Gui.Compose
import Shipwreck.Gui.Desk
import Shipwreck.Gui.Display
import Shipwreck.Gui.Fill
import Shipwreck.Gui.Forest
import Shipwreck.Gui.FrameMoves
import Shipwreck.Gui.Glyphs
import Shipwreck.Gui.Hierarchy
import Shipwreck.Gui.LineEditor
import Shipwreck.Gui.Manager
import Shipwreck.Gui.Paint
import Shipwreck.Gui.Placement
import Shipwreck.Gui.Pointer
import Shipwreck.Gui.Raise
import Shipwreck.Gui.RectUnion
import Shipwreck.Gui.Redraw
import Shipwreck.Gui.Roots
import Shipwreck.Gui.Stack
import Shipwreck.Gui.StackRuns
import Shipwreck.Gui.Terminal
import Shipwreck.Gui.TextBox
import Shipwreck.Gui.TextEdit
import Shipwreck.Gui.TextPicture
import Shipwreck.Gui.TopLevel
import Shipwreck.Gui.Update
import Shipwreck.Gui.UserData
import Shipwreck.Gui.Wallpaper
import Shipwreck.Gui.Window
import Shipwreck.Gui.WindowIds
