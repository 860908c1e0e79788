import OsLabs.Mmu.FitPolicy
import OsLabs.SchedSim.SrtfOptimal
import OsLabs.ChilliBowl.Progress
import OsLabs.Chat.Endings
import OsLabs.Chat.Others
import OsLabs.Chat.Dangling
import OsLabs.Chat.Usernames
import OsLabs.Chat.DmRelation
import OsLabs.Chat.RoomMap
import OsLabs.Chat.ReadersWriters
import OsLabs.Lib.Semaphore
import OsLabs.Bank.Alternation
import OsLabs.Bank.Family
import OsLabs.Lib.Timeline
import OsLabs.SchedSim.RoundRobin
import OsLabs.SchedSim.Fcfs
import OsLabs.SchedSim.Schedules
import OsLabs.Lib.Chain
import OsLabs.LinkedList.List
import OsLabs.LinkedList.Sequence
import OsLabs.ListServer.List
import OsLabs.ListServer.Agreement
import OsLabs.Lib.Interval
import OsLabs.Mmu.Canonical
import OsLabs.Mmu.OneRequest
import OsLabs.Mmu.Shortage
import OsLabs.Mmu.Release
import OsLabs.Mmu.AnySize
import OsLabs.ChilliBowl.Freed
import OsLabs.Bank.Turns
import OsLabs.Chat.RwOwner
import OsLabs.MatrixThreads.Matrix
import OsLabs.MatrixThreads.Results
import OsLabs.Lib.ForLoop
import OsLabs.SchedSim.FcfsOrder
import OsLabs.Lib.MachineInt
import OsLabs.SchedSim.Priority
import OsLabs.SchedSim.RrWaiting
import OsLabs.SchedSim.RrFcfs
import OsLabs.SchedSim.SrtfEnds
import OsLabs.SchedSim.SrtfTogether
import OsLabs.Mmu.Stability
import OsLabs.Mmu.Overflow
import OsLabs.Lib.Scanf
import OsLabs.Mmu.ParseFile
import OsLabs.SchedSim.RrColumns
import OsLabs.SchedSim.ClockRange
import OsLabs.FuncPtr.Comparer
import OsLabs.Lib.ScanDecimal
import OsLabs.SchedSim.ParseFile
import OsLabs.Chat.JoinRoom
import OsLabs.Chat.Broadcast
import OsLabs.Chat.Listing
import OsLabs.Chat.DmAlloc
import OsLabs.Lib.Descriptors
import OsLabs.Shell.Redirect
import OsLabs.Lib.Strtok
import OsLabs.Lib.StringBuffer
import OsLabs.LinkedList.ToString
import OsLabs.Mmu.Search
import OsLabs.ListServer.ToString
import OsLabs.ListServer.Dispatch
import OsLabs.Lib.StrtokLoop
import OsLabs.Shell.Main
import OsLabs.Shell.Pipeline
import OsLabs.ChilliBowl.Day
import OsLabs.Chat.Statements
import OsLabs.Chat.Threads
import OsLabs.Lib.Simulation
import OsLabs.Lib.Projection
import OsLabs.Chat.Exclusion
import OsLabs.Chat.Atomic
import OsLabs.Chat.Service
import OsLabs.Chat.Guests
import OsLabs.Chat.MessageThreads
import OsLabs.Chat.MessageService
import OsLabs.SchedSim.IntClock
import OsLabs.SchedSim.Main
import OsLabs.SchedSim.SrtfPreempts
import OsLabs.Lib.TextLines
import OsLabs.Shell.Session
import OsLabs.Shell.Script
import OsLabs.Shell.Children
import OsLabs.Shell.Drain
import OsLabs.Shell.Files
import OsLabs.ListServer.Service
import OsLabs.ListServer.Lockstep
import OsLabs.ListServer.Waiting
