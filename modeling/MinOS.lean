import MinOS.Library.Transition
import MinOS.Memory.Bitmap
import MinOS.Memory.Init
import MinOS.Library.Placement
import MinOS.Task.Manager
import MinOS.Task.RunQueue
import MinOS.Task.Join
import MinOS.Fat.Volume
import MinOS.Fat.Descriptor
import MinOS.Fat.Chain
import MinOS.Fat.Write
import MinOS.Fat.WriteLoop
import MinOS.Fat.Fuel
import MinOS.Fat.Read
import MinOS.Fat.RoundTrip
import MinOS.Library.PriorityQueue
import MinOS.Timer.Manager
import MinOS.Timer.Delivery
import MinOS.Task.EventLoop
import MinOS.Task.Pipe
import MinOS.Task.PipeStream
import MinOS.Task.PipeLifetime
import MinOS.App.Regions
import MinOS.App.Stores
import MinOS.App.Syscall
import MinOS.Fat.Sharing
import MinOS.Paging.Entry
import MinOS.Paging.Machine
import MinOS.Paging.EntrySet
import MinOS.Paging.Tree
import MinOS.Paging.Setup
import MinOS.Paging.Mapped
import MinOS.App.Elf
import MinOS.App.ElfConfined
import MinOS.Fat.Path
import MinOS.Fat.Create
import MinOS.Fat.Lookup
import MinOS.Fat.Agreement
import MinOS.Library.Ownership
import MinOS.Paging.Space
import MinOS.Paging.Change
import MinOS.Graphics.FrameBuffer
import MinOS.Graphics.Window
import MinOS.Graphics.Layer
import MinOS.Graphics.Redraw
import MinOS.Graphics.Active
import MinOS.Graphics.Mouse
import MinOS.Library.CycleRing
import MinOS.Usb.Ring
import MinOS.Usb.Fifo
import MinOS.Usb.Controller
import MinOS.Usb.Events
import MinOS.Terminal.Blink
import MinOS.Terminal.Font
import MinOS.Terminal.Screen
import MinOS.Terminal.Bounds
import MinOS.Terminal.Text
import MinOS.Library.FirstMark
import MinOS.Terminal.CommandLine
import MinOS.Terminal.Respacing
import MinOS.Terminal.ArgVector
import MinOS.Terminal.Cat
import MinOS.Library.WordMemory
import MinOS.Library.X86
import MinOS.Task.Context
import MinOS.Task.Switch
import MinOS.App.Heap
import MinOS.Fat.Compose
import MinOS.Fat.Overrun
import MinOS.Fat.ShortName
import MinOS.Fat.Capacity
import MinOS.Fat.Load
import MinOS.Graphics.Clip
import MinOS.Memory.Bounds
import MinOS.Paging.Grown
import MinOS.Paging.Range
import MinOS.Paging.Copy
import MinOS.Paging.Content
import MinOS.App.PageFault
import MinOS.App.FaultConfined
import MinOS.App.Launch
import MinOS.App.WindowCalls
import MinOS.Library.Walk
import MinOS.Fat.Walk
import MinOS.Library.Program
import MinOS.Terminal.Windowless
import MinOS.Terminal.Untouched
import MinOS.Graphics.Scroll
import MinOS.Timer.CreateTimer
import MinOS.Memory.Stat
import MinOS.Acpi.PmTimer
import MinOS.Usb.ControlTransfer
import MinOS.Library.WordLoop
import MinOS.Usb.ScanPorts
import MinOS.Library.Hierarchy
import MinOS.Pci.Scan
import MinOS.Pci.Enumeration
import MinOS.Boot.LoadKernel
import MinOS.Boot.CopySegments
import MinOS.Graphics.MouseMessages
import MinOS.Library.TextView
import MinOS.Terminal.Console
import MinOS.Terminal.ConsoleOutput
import MinOS.Boot.ReadVolume
import MinOS.Terminal.ReadDelim
import MinOS.Paging.OwnPages
import MinOS.Paging.SharePages
import MinOS.Paging.Clean
import MinOS.App.Frames
import MinOS.App.Lifetime
import MinOS.App.Launching
import MinOS.App.Accounts
import MinOS.Fat.Intact
import MinOS.Fat.Disk
import MinOS.Fat.CopyFile
import MinOS.Paging.Isolates
import MinOS.App.Isolation
import MinOS.App.IsolationRuns
import MinOS.Library.RoundRobin
import MinOS.Task.Fairness
import MinOS.Library.X86Calls
import MinOS.Task.SystemCall
import MinOS.Library.StackMachine
import MinOS.User.Rpn
import MinOS.Pci.Msi
import MinOS.Library.LineEditor
import MinOS.Terminal.Editor
import MinOS.Terminal.AppTimers
