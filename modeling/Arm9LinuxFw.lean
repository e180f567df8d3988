import Arm9LinuxFw.Common
import Arm9LinuxFw.Lib.ByteMem
import Arm9LinuxFw.Lib.CircularList
import Arm9LinuxFw.Lib.History
import Arm9LinuxFw.Lib.LinkGraph
import Arm9LinuxFw.Lib.RingBuffer
import Arm9LinuxFw.Lib.Transition
import Arm9LinuxFw.Sys.Event
import Arm9LinuxFw.Sys.List
import Arm9LinuxFw.Sys.Fifo
import Arm9LinuxFw.Hw.Irq
import Arm9LinuxFw.Hw.Pxi
import Arm9LinuxFw.Hw.Timer
import Arm9LinuxFw.Virt.Irq
import Arm9LinuxFw.Virt.Queue
import Arm9LinuxFw.Virt.Job
import Arm9LinuxFw.Virt.Device
import Arm9LinuxFw.Virt.Manager
import Arm9LinuxFw.Vdev.HwRng
import Arm9LinuxFw.Vdev.SdCard
import Arm9LinuxFw.Vdev.Table
import Arm9LinuxFw.Rings.Layout
import Arm9LinuxFw.Rings.Avail
import Arm9LinuxFw.Rings.Used
import Arm9LinuxFw.Process.Step
import Arm9LinuxFw.Process.Loop
import Arm9LinuxFw.Process.Frame
import Arm9LinuxFw.Process.Entries
import Arm9LinuxFw.Process.Visits
import Arm9LinuxFw.Process.Bounds
import Arm9LinuxFw.Process.Termination
import Arm9LinuxFw.Process.Completion
import Arm9LinuxFw.Process.Job
import Arm9LinuxFw.Process.Length
import Arm9LinuxFw.Process.Status
import Arm9LinuxFw.Process.Session
import Arm9LinuxFw.Process.Scatter
import Arm9LinuxFw.Process.Hidden
import Arm9LinuxFw.Manager.Boot
import Arm9LinuxFw.Manager.RegMap
import Arm9LinuxFw.Manager.Interrupts
import Arm9LinuxFw.Manager.Trace
import Arm9LinuxFw.Manager.Pending
import Arm9LinuxFw.Manager.MainLoop
import Arm9LinuxFw.Manager.Registers
import Arm9LinuxFw.Manager.Sizes
import Arm9LinuxFw.Manager.Framing
import Arm9LinuxFw.Manager.Reset
import Arm9LinuxFw.Manager.Remnants
import Arm9LinuxFw.Service.Model
import Arm9LinuxFw.Service.Discipline
import Arm9LinuxFw.Service.Rings
import Arm9LinuxFw.Service.Signals
import Arm9LinuxFw.Service.Host
import Arm9LinuxFw.Service.Start
import Arm9LinuxFw.Service.Checks
import Arm9LinuxFw.Service.Uninterrupted
import Arm9LinuxFw.Service.Agreement
import Arm9LinuxFw.Service.Progress
import Arm9LinuxFw.Hw.Sdmmc
import Arm9LinuxFw.Hw.SdComplete
import Arm9LinuxFw.Hw.SdInit
import Arm9LinuxFw.Hw.SdCsd
import Arm9LinuxFw.Hw.SdOrder
import Arm9LinuxFw.Boot.Loader
import Arm9LinuxFw.Arm.Exception
import Arm9LinuxFw.Process.Answer
