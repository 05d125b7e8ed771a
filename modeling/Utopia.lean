import Utopia.Mm.PageRefine
import Utopia.Exec.StackSwitch
import Utopia.Exec.ProcessRun
import Utopia.Exec.Wait4Run
import Utopia.Fs.PathResolvers
import Utopia.Fs.TarfsArchive
import Utopia.Fs.TarfsReaddir
import Utopia.Fs.TarfsSafe
import Utopia.Lib.Loop
import Utopia.Mm.PageList
import Utopia.Mm.CloneSpace
import Utopia.Exec.MmapAtomic
import Utopia.Exec.MemoryRuns
import Utopia.Fs.VfsOpen
import Utopia.Mm.BootHeap
import Utopia.Mm.BootMapped
import Utopia.Drivers.BackBuffer
import Utopia.Uconfig.RoundTrip
import Utopia.Exec.CloneUndo
import Utopia.Mm.HeapSizes
import Utopia.Drivers.ConsoleBounds
import Utopia.Fs.FileWrites
import Utopia.Exec.DescriptorChecks
import Utopia.Exec.UserPointers
import Utopia.Exec.InitialStack
import Utopia.Exec.ElfExhaustion
import Utopia.Exec.ProtBits
import Utopia.Exec.BrkRun
import Utopia.Mm.FreeOrder
import Utopia.Mm.PhysicalRange
import Utopia.Arch.Clock
import Utopia.Drivers.Keyboard
import Utopia.Drivers.Acpi
import Utopia.Mm.ReserveDifference
import Utopia.Exec.Writev
import Utopia.Fs.TarfsLinks
import Utopia.Fs.RamfsOpen
import Utopia.Fs.SparseFile
import Utopia.Exec.GetdentsRun
import Utopia.Exec.ExecveRun
import Utopia.Exec.LockedSections
import Utopia.Drivers.Numbers
import Utopia.Uconfig.PostfixEval
import Utopia.Uconfig.Grammar
import Utopia.Drivers.AcpiTables
import Utopia.Mm.SplitLeaf
import Utopia.Exec.ElfRelr
import Utopia.Exec.ElfImage
import Utopia.Exec.PhdrTable
import Utopia.Mm.TableWrites
import Utopia.Exec.ElfConfined
import Utopia.Exec.Fairness
import Utopia.Exec.ElfReads
import Utopia.Mm.HeapFirstFit
import Utopia.Arch.ContextSwitch
import Utopia.Exec.StackDecode
import Utopia.Exec.ElfRela
import Utopia.Mm.Utils
import Utopia.Mm.Strings
import Utopia.Arch.RiscvRuns
