import SysProg.Lib.ExchangeSort
import SysProg.Lib.CString
import SysProg.Lib.Agree
import SysProg.Lib.Run
import SysProg.Lib.Shuffle
import SysProg.Lib.Loops
import SysProg.Lib.Channel
import SysProg.Lib.Lists
import SysProg.Lib.Rv32i
import SysProg.Lib.Hart
import SysProg.Pe.Order
import SysProg.Pe.Market
import SysProg.Pe.Message
import SysProg.Pe.Exchange
import SysProg.Pe.Search
import SysProg.Pe.Place
import SysProg.Pe.Step
import SysProg.Pe.Sound
import SysProg.Pe.Filled
import SysProg.Pe.Served
import SysProg.Pe.PriceTime
import SysProg.Pe.Ledger
import SysProg.Pe.Range
import SysProg.Pe.Trades
import SysProg.Pe.Numbering
import SysProg.Pe.Crossed
import SysProg.Pe.Notify
import SysProg.Pe.Trader
import SysProg.Pe.EventLoop
import SysProg.Pe.Agreement
import SysProg.Pe.Verdict
import SysProg.Pe.Shutdown
import SysProg.Pe.Signals
import SysProg.Pe.Broadcast
import SysProg.Pe.Arrival
import SysProg.Pe.Engine
import SysProg.Pe.EngineEnter
import SysProg.Pe.EngineRun
import SysProg.Pe.Commute
import SysProg.Pe.Grammar
import SysProg.Pe.Numbers
import SysProg.Pe.Amend
import SysProg.Pe.Asks
import SysProg.Pe.Buffer
import SysProg.Pe.Print
import SysProg.Pe.Log
import SysProg.Pe.Interleave
import SysProg.Pe.Work
import SysProg.Pe.Startup
import SysProg.Pe.StartupRest
import SysProg.Pe.Products
import SysProg.Vm.Machine
import SysProg.Vm.Execute
import SysProg.Vm.Frame
import SysProg.Vm.Bounds
import SysProg.Vm.Decode
import SysProg.Vm.Alu
import SysProg.Vm.LoadStore
import SysProg.Vm.Branch
import SysProg.Vm.Jump
import SysProg.Vm.Progress
import SysProg.Vm.Refine
import SysProg.Vm.Logic
import SysProg.Vm.Images
import SysProg.Gitm.Board
import SysProg.Gitm.Lines
import SysProg.Gitm.Game
import SysProg.Gitm.Replay
import SysProg.Gitm.Commands
import SysProg.Gitm.Ending
import SysProg.Gitm.View
import SysProg.Gitm.Restore
