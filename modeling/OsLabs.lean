import OsLabs.PThread.Goods
import OsLabs.Jos.PageOps
import OsLabs.Jos.Receivers
import OsLabs.Jos.Requests
import OsLabs.Jos.EnvIds
import OsLabs.Jos.KernelLock
import OsLabs.Jos.SyscallContract
import OsLabs.Jos.Unrelated
import OsLabs.Jos.KernelLayout
import OsLabs.Jos.Delivery
import OsLabs.Core.Numerals
import OsLabs.Core.Turns
import OsLabs.Jos.RoundRobin
import OsLabs.Jos.Loading
import OsLabs.Jos.Memory
import OsLabs.Jos.UserCheck
import OsLabs.Jos.Messages
import OsLabs.Jos.SlotReuse
import OsLabs.Jos.Stabs
import OsLabs.Jos.StabSearch
import OsLabs.Jos.Scripts
import OsLabs.Jos.Release
import OsLabs.Jos.EnvFree
import OsLabs.Jos.FaultFrame
import OsLabs.Jos.Printfmt
import OsLabs.Jos.Cputs
import OsLabs.Jos.Kdebug
import OsLabs.Jos.LineNumbers
import OsLabs.Jos.StabBounds
import OsLabs.Jos.UserStabs
import OsLabs.Jos.EnvInit
import OsLabs.Jos.SchedYield
import OsLabs.Jos.PageInit
import OsLabs.Jos.Lab5Alloc
import OsLabs.Jos.BootAlloc
import OsLabs.Jos.NumberText
import OsLabs.Jos.RegionMap
import OsLabs.Jos.MmioMap
import OsLabs.Jos.Devices
import OsLabs.Jos.Bystanders
import OsLabs.Jos.Interrupts
import OsLabs.Jos.Elf
import OsLabs.Jos.UserPages
import OsLabs.Jos.LoadIcode
import OsLabs.Core.Fuel
import OsLabs.Core.Chunks
import OsLabs.Jos.Strtol
import OsLabs.Jos.Formats
import OsLabs.Jos.FormatText
import OsLabs.Jos.FormatRuns
import OsLabs.Jos.FormatSafety
import OsLabs.Jos.Cprintf
import OsLabs.Jos.Snprintf
import OsLabs.Core.Logs
import OsLabs.Core.Terminal
import OsLabs.Jos.Console
import OsLabs.Jos.CgaTerminal
import OsLabs.Jos.SerialLog
import OsLabs.Jos.Colours
import OsLabs.Core.Rings
import OsLabs.Jos.ConsInput
import OsLabs.Jos.Readline
import OsLabs.Core.Words
import OsLabs.Jos.Monitor
import OsLabs.Jos.CommandLine
import OsLabs.Jos.Handlers
import OsLabs.Jos.HexNumbers
import OsLabs.Core.Moves
import OsLabs.Jos.Memmove
import OsLabs.Core.CStrings
import OsLabs.Shell.Strtok
import OsLabs.Shell.Merge
import OsLabs.Shell.Main
import OsLabs.Jos.Mappings
import OsLabs.Jos.MpConfig
import OsLabs.Core.Overlays
import OsLabs.Jos.BootLoader
import OsLabs.Jos.Exclusion
import OsLabs.Jos.Exhaustion
import OsLabs.Jos.SoundMemory
import OsLabs.Jos.Offspring
import OsLabs.Jos.Accounting
import OsLabs.Jos.BootWindows
import OsLabs.Jos.Isolation
import OsLabs.Jos.Confidentiality
import OsLabs.Jos.Views
import OsLabs.Jos.Tlb
import OsLabs.Core.Rendezvous
import OsLabs.Jos.Mailboxes
import OsLabs.Core.Eratosthenes
import OsLabs.Jos.Primes
import OsLabs.Core.CopyOnWrite
import OsLabs.Jos.Contents
