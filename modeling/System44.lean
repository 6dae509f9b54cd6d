import System44.ByteMemory
import System44.FirstFit
import System44.E820
import System44.Ledger
import System44.PmmSearch
import System44.PmmInit
import System44.PmmKernel
import System44.BootMap
import System44.KfsLayout
import System44.KfsRoundTrip
import System44.KfsAtomic
import System44.UexBounds
import System44.PackUex
import System44.UexFile
import System44.UexFixed
import System44.KfsNames
import System44.KfsSpill
import System44.Vfs
import System44.KfsWalk
import System44.Keyboard
import System44.Shell
import System44.RoundRobin
import System44.Swtch
import System44.SchedSwitch
import System44.PmmPlain
import System44.PmmRefuse
import System44.PmmSelf
import System44.AtaRoundTrip
import System44.AtaErrors
import System44.Cursor
import System44.Pci
import System44.PciEnumerate
import System44.BootLog
import System44.Exec
import System44.KeyboardShift
import System44.VfsCount
import System44.VfsResult
import System44.KfsTouch
import System44.Fb
import System44.FbRead
import System44.FbLogo
import System44.Tty
import System44.ShellEcho
import System44.PciConfig
import System44.PciBars
import System44.PciBarSizes
import System44.Sleep
import System44.StrtokRuns
import System44.Ia32Stack
import System44.Interrupts
import System44.Digits
import System44.Printf
import System44.PrintfRuns
import System44.PrintfBuffer
import System44.Klog
import System44.Atoi
import System44.StrcmpOrder
import System44.Catalog
import System44.WriteLog
import System44.KfsFiles
import System44.KfsHistory
import System44.KfsProgram
import System44.ShellCommands
import System44.ShellSession
import System44.ShellFrame
import System44.ShellPower
import System44.Pic8259
import System44.IrqRuns
import System44.FbPicture
import System44.FbLogoShown
import System44.TtyFont
import System44.TtyScreen
import System44.TtyText
import System44.TtyCounter
import System44.KeyboardTyping
import System44.KeyboardProgress
import System44.ShellTyping
import System44.VfsHistory
import System44.FbRect
import System44.Syscall
