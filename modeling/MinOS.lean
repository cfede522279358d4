import MinOS.Lib.Bytes
import MinOS.Lib.Machine
import MinOS.Lib.NameTree
import MinOS.Ata
import MinOS.Vfs.Path
import MinOS.Vfs.Model
import MinOS.Vfs.Table
import MinOS.Vfs.Calls
import MinOS.Vfs.Codec
import MinOS.Vfs.Reach
import MinOS.Vfs.Query
import MinOS.Vfs.Remount
import MinOS.Vfs.Working
import MinOS.Vfs.Layout
import MinOS.Vfs.Crash
import MinOS.Vfs.Failure
import MinOS.Vfs.Append
import MinOS.Vfs.FileTree
import MinOS.Vfs.Refine
import MinOS.BootInfo
import MinOS.Lib.Bitmap
import MinOS.Pmm.Model
import MinOS.Lib.Word
import MinOS.Pmm.Frames
import MinOS.Pmm.Init
import MinOS.Pmm.Runs
import MinOS.Pmm.Ownership
import MinOS.Pmm.Accounting
import MinOS.Lib.Paging
import MinOS.Vmm.Model
import MinOS.Vmm.Boot
import MinOS.Vmm.Window
import MinOS.Heap
import MinOS.Vmm.User
import MinOS.Lib.Chain
import MinOS.Scheduler.Model
import MinOS.Scheduler.Queue
import MinOS.Vfs.SafeTable
import MinOS.Vfs.Load
import MinOS.Scheduler.Exit
import MinOS.Lib.Amd64
import MinOS.Syscall
import MinOS.Scheduler.Switch
import MinOS.Input
import MinOS.Handoff
import MinOS.Lib.Buffer
import MinOS.Lib.Fat16
import MinOS.Mkdisk
import MinOS.Vfs.Normalize
import MinOS.Vfs.PathStores
import MinOS.Console.Shell
import MinOS.Console.Walk
import MinOS.Vfs.Move
import MinOS.Console.Session
import MinOS.Console.WorkingDirectory
import MinOS.Console.Files
import MinOS.Console.Operand
import MinOS.Console.Editor
import MinOS.Console.History
import MinOS.Console.Screen
import MinOS.Framebuffer
import MinOS.Console.Pixels
import MinOS.Pmm.FirstFit
import MinOS.Pmm.Reserve
import MinOS.Heap.Slabs
import MinOS.Heap.Blocks
import MinOS.Interrupt
import MinOS.Keyboard.Decode
import MinOS.Keyboard.Held
import MinOS.Keyboard.Controller
import MinOS.Console.Lines
import MinOS.Console.Drawing
import MinOS.Console.Blink
import MinOS.Framebuffer.Words
import MinOS.Lib.Numeral
import MinOS.Serial.Numbers
import MinOS.Boot.MapBuffer
import MinOS.Boot.Totals
import MinOS.Serial.Printf
import MinOS.Mkdisk.Tail
import MinOS.Ata.Ports
import MinOS.Ata.RoundTrip
import MinOS.Ata.Status
import MinOS.Vfs.Reported
import MinOS.Interrupt.Pic
import MinOS.Vfs.Durable
import MinOS.Keyboard.Delivery
import MinOS.Interrupt.Idt
import MinOS.Vfs.Outage
import MinOS.Interrupt.Timer
import MinOS.Console.Typing
import MinOS.Serial.Transmit
