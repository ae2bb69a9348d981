import Jos.Lib.Chain
import Jos.Lib.RefPool
import Jos.Lib.Run
import Jos.Mmu
import Jos.Pmap.State
import Jos.Pmap.Alloc
import Jos.Pmap.Walk
import Jos.Pmap.Map
import Jos.Pmap.Boot
import Jos.Pmap.Invariant
import Jos.Pmap.Ops
import Jos.Pmap.Consistent
import Jos.Pmap.Refine
import Jos.Lib.Cache
import Jos.Pmap.RefCount
import Jos.Pmap.Tlb
import Jos.Pmap.Startup
import Jos.Pmap.CheckFreeList
import Jos.Lib.Overlay
import Jos.Pmap.Region
import Jos.Pmap.BootMap
import Jos.Pmap.KernMap
import Jos.Pmap.SelfTest
import Jos.Lib.Bump
import Jos.Pmap.BootAlloc
import Jos.Pmap.DoubleFree
import Jos.Pmap.Lookup
import Jos.Console.Devices
import Jos.Lib.Ring
import Jos.Console.Input
import Jos.Console.Overflow
import Jos.Console.Cga
import Jos.Boot.Main
import Jos.Boot.Entry
import Jos.Lib.Sim
import Jos.Lib.Fuel
import Jos.Printf.Format
import Jos.Printf.Fronts
import Jos.Printf.Scan
import Jos.Printf.Output
import Jos.Printf.Total
import Jos.Printf.Field
import Jos.Printf.Strtol
import Jos.Printf.Strings
import Jos.Printf.Precision
import Jos.Printf.Cprintf
import Jos.Printf.Pieces
import Jos.Console.Readline
import Jos.Console.Keyboard
import Jos.Console.Typing
import Jos.Lib.Words
import Jos.Lib.StringOps
import Jos.String.Memory
import Jos.String.Compare
import Jos.String.Copy
import Jos.Monitor.Runcmd
import Jos.Kdebug.Search
import Jos.Kdebug.Bisect
import Jos.Kdebug.Info
import Jos.Kdebug.Safety
import Jos.Kdebug.Args
import Jos.Kdebug.Window
import Jos.Pmap.MemInit
import Jos.Pmap.MapCalls
import Jos.Pmap.Installed
import Jos.Pmap.Isolation
import Jos.Pmap.Uvpt
import Jos.Pmap.Takeover
import Jos.Boot.Start
import Jos.Printf.Texts
import Jos.Console.Ports
import Jos.Monitor.Backtrace
import Jos.Monitor.Calls
import Jos.Monitor.Commands
import Jos.Monitor.Session
