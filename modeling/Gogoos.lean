import Gogoos.Fs.DirectoryRun
import Gogoos.Fs.Contents
import Gogoos.Kernel.MonitorRun
import Gogoos.Kernel.FamilyRun
import Gogoos.Kernel.Space
import Gogoos.Kernel.PageRun
import Gogoos.Kernel.ExecRun
import Gogoos.Kernel.MallocRun
import Gogoos.Kernel.ForkFrame
import Gogoos.Kernel.Descriptors
import Gogoos.Kernel.ExitRun
import Gogoos.Structure.IOQueue
import Gogoos.Device.Keyboard
import Gogoos.Kernel.PidRun
import Gogoos.Kernel.ParentRun
import Gogoos.Kernel.LoaderImage
import Gogoos.Kernel.LoaderLaw
import Gogoos.Fs.Reboot
import Gogoos.Fs.LaidOut
import Gogoos.Fs.Lookup
import Gogoos.Fs.SizeLimit
import Gogoos.Fs.RejectedWrite
import Gogoos.Kernel.Handles
import Gogoos.Kernel.Heaps
import Gogoos.Kernel.Positions
import Gogoos.Kernel.FailedCalls
import Gogoos.Device.KeyboardIntr
import Gogoos.Kernel.TlbRun
import Gogoos.Kernel.OneSpace
import Gogoos.Kernel.ProcessTable
import Gogoos.Kernel.Exhausted
import Gogoos.Fs.InodeTable
import Gogoos.Fs.ReadDir
import Gogoos.Shell.Canonical
import Gogoos.Kernel.BadDescriptors
import Gogoos.Kernel.PathCalls
import Gogoos.Fs.PathLaw
import Gogoos.Kernel.CwdLaw
import Gogoos.Structure.FirstFit
import Gogoos.Kernel.Layout
import Gogoos.Fs.PathText
import Gogoos.Shell.CmdParse
import Gogoos.Shell.ReadLine
import Gogoos.Lib.Vsprintf
import Gogoos.Shell.ConsoleWrites
import Gogoos.Structure.LinkedList
import Gogoos.Kernel.MallocTotal
import Gogoos.Device.PartitionLaw
import Gogoos.Lib.Print
import Gogoos.Structure.BitMapAccess
import Gogoos.Device.Controller
import Gogoos.Device.Transfer
import Gogoos.Kernel.Writers
import Gogoos.Kernel.Resolution
import Gogoos.Kernel.DirRemoval
import Gogoos.Kernel.RmdirLaw
import Gogoos.Kernel.ForkedHeaps
import Gogoos.Machine.Cpu
import Gogoos.Kernel.Entry
import Gogoos.Kernel.Switch
import Gogoos.Kernel.FirstReturn
import Gogoos.Device.Screen
import Gogoos.Kernel.PathAgree
