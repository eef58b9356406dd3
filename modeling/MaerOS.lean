import MaerOS.Lib.RunTable
import MaerOS.Lib.Run
import MaerOS.Lib.Memory
import MaerOS.Lib.Prog
import MaerOS.Lib.LinkedList
import MaerOS.Lib.X86
import MaerOS.Model.Heap
import MaerOS.Model.Paging
import MaerOS.Model.Kernel
import MaerOS.Model.Task
import MaerOS.Model.Process
import MaerOS.Model.Elf
import MaerOS.Model.ProcessLife
import MaerOS.Model.Switch
import MaerOS.Analysis.HeapTable
import MaerOS.Analysis.HeapAlloc
import MaerOS.Analysis.HeapSafety
import MaerOS.Analysis.PageMap
import MaerOS.Analysis.PagingNew
import MaerOS.Analysis.PackedHeap
import MaerOS.Analysis.PagingRuns
import MaerOS.Analysis.HeapOwns
import MaerOS.Analysis.PagingOwns
import MaerOS.Analysis.TaskSpecs
import MaerOS.Analysis.TaskRuns
import MaerOS.Analysis.ContextSwitch
import MaerOS.Analysis.ProcessAlloc
import MaerOS.Analysis.Isolation
import MaerOS.Analysis.ProcessLoad
import MaerOS.Analysis.LoadUndone
import MaerOS.Analysis.ProcessLife
import MaerOS.Lib.Slice
import MaerOS.Model.Disk
import MaerOS.Model.Fat16
import MaerOS.Analysis.FatRead
import MaerOS.Model.PathParser
import MaerOS.Model.Fat16Dir
import MaerOS.Model.File
import MaerOS.Analysis.FileBalance
import MaerOS.Analysis.FileOwns
import MaerOS.Analysis.FileTable
import MaerOS.Analysis.RoundRobin
import MaerOS.Analysis.ScreenLine
import MaerOS.Analysis.Keyboard
import MaerOS.Analysis.KeyboardDriver
import MaerOS.Analysis.PagingBalance
import MaerOS.Lib.Forget
import MaerOS.Model.FatStreams
import MaerOS.Analysis.FatStreams
import MaerOS.Analysis.FileReads
import MaerOS.Analysis.StreamRuns
import MaerOS.Analysis.Strtok
import MaerOS.Analysis.UserMemory
import MaerOS.Analysis.CommandLine
import MaerOS.Analysis.TableLoad
import MaerOS.Analysis.ProcessTable
import MaerOS.Lib.FreeSpans
import MaerOS.Analysis.FirstFit
import MaerOS.Analysis.LoadPlace
import MaerOS.Analysis.TableRuns
import MaerOS.Analysis.Streamer
import MaerOS.Analysis.FatTable
import MaerOS.Analysis.FatLayout
import MaerOS.Analysis.FatSplit
import MaerOS.Analysis.FatDirectory
import MaerOS.Analysis.ProcessPages
import MaerOS.Analysis.ProcessFree
import MaerOS.Analysis.ElfExtent
import MaerOS.Lib.Extent
import MaerOS.Analysis.PathParser
import MaerOS.Analysis.FatNames
import MaerOS.Analysis.ElfMap
import MaerOS.Analysis.ElfInside
import MaerOS.Lib.Checked
import MaerOS.Model.ElfReads
import MaerOS.Analysis.ElfReads
import MaerOS.Analysis.FatRoot
import MaerOS.Analysis.FatItems
import MaerOS.Analysis.FatPaths
import MaerOS.Model.Terminal
import MaerOS.Analysis.Terminal
import MaerOS.Lib.LineEditor
import MaerOS.Model.Stdlib
import MaerOS.Analysis.Readline
import MaerOS.Analysis.Itoa
import MaerOS.Analysis.Printf
import MaerOS.Lib.Mmu
import MaerOS.Model.TaskMemory
import MaerOS.Analysis.TaskString
import MaerOS.Lib.Stores
import MaerOS.Model.Isr80h
import MaerOS.Analysis.GetArguments
import MaerOS.Analysis.ProgramPath
import MaerOS.Analysis.ArgumentChain
import MaerOS.Analysis.ParseRuns
import MaerOS.Analysis.InjectOutcome
import MaerOS.Analysis.SystemCommand
import MaerOS.Analysis.HeapCreate
import MaerOS.Analysis.Gdt
import MaerOS.Lib.Descriptor
import MaerOS.Model.Gdt
import MaerOS.Lib.Ata
import MaerOS.Model.Ports
import MaerOS.Analysis.DiskDriver
import MaerOS.Analysis.StreamDriver
import MaerOS.Lib.X86Frame
import MaerOS.Model.Interrupt
import MaerOS.Analysis.SystemCalls
import MaerOS.Analysis.KheapRuns
import MaerOS.Analysis.WholeFile
import MaerOS.Analysis.BinaryImage
import MaerOS.Lib.Gate
import MaerOS.Model.Idt
import MaerOS.Analysis.Idt
import MaerOS.Analysis.DivideError
import MaerOS.Lib.Turns
import MaerOS.Model.Dispatch
import MaerOS.Analysis.TaskOrder
import MaerOS.Analysis.Dispatch
import MaerOS.Analysis.FirstTask
import MaerOS.Analysis.Console
import MaerOS.Model.MemoryCalls
import MaerOS.Analysis.PrivateMemory
import MaerOS.Analysis.TableModel
