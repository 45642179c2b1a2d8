import ThyristorController.Lib.Run
import ThyristorController.Lib.TokenSlot
import ThyristorController.Lib.Rounding
import ThyristorController.Lib.Ring
import ThyristorController.Lib.Chain
import ThyristorController.Lib.ChainFamily
import ThyristorController.Lib.Clock
import ThyristorController.Lib.Bytes
import ThyristorController.Lib.TextBuffer
import ThyristorController.Lib.Counting
import ThyristorController.Lib.Spans
import ThyristorController.Lib.Duplex
import ThyristorController.Lib.Smoothing
import ThyristorController.Lib.Prescale
import ThyristorController.Lib.FirstRise
import ThyristorController.Lib.CellLoops
import ThyristorController.Lib.Numerals
import ThyristorController.Lib.WordSet
import ThyristorController.Lib.Crc
import ThyristorController.Lib.Packed12
import ThyristorController.Lib.LineEdit
import ThyristorController.Lib.Terminal
import ThyristorController.Lib.Completion
import ThyristorController.Kernel.Semaphore
import ThyristorController.Kernel.Scheduler
import ThyristorController.Kernel.ReadyTable
import ThyristorController.Kernel.Resume
import ThyristorController.Kernel.Teardown
import ThyristorController.Kernel.RoundRobin
import ThyristorController.Kernel.SemThreads
import ThyristorController.Kernel.PrioWait
import ThyristorController.Kernel.RtDef
import ThyristorController.Kernel.IpcThreads
import ThyristorController.Kernel.Mutex
import ThyristorController.Kernel.MutexPriority
import ThyristorController.Kernel.Mailbox
import ThyristorController.Kernel.MessageQueue
import ThyristorController.Kernel.Timer
import ThyristorController.Kernel.TimerDelivery
import ThyristorController.Kernel.SoftTimer
import ThyristorController.Kernel.TimerCheck
import ThyristorController.Kernel.DelayUntil
import ThyristorController.Kernel.Heap
import ThyristorController.Kernel.HeapLayout
import ThyristorController.Kernel.HeapAlloc
import ThyristorController.Kernel.HeapUse
import ThyristorController.Kernel.HeapCalls
import ThyristorController.Kernel.Event
import ThyristorController.Kernel.EventSend
import ThyristorController.Kernel.Mempool
import ThyristorController.Kernel.Kservice
import ThyristorController.Kernel.PrintNumber
import ThyristorController.Kernel.Kprintf
import ThyristorController.Kernel.MemCopy
import ThyristorController.Kernel.Device
import ThyristorController.App.Params
import ThyristorController.Dfs.ElmFile
import ThyristorController.Dfs.FatTable
import ThyristorController.Dfs.FatChain
import ThyristorController.Dfs.FatFile
import ThyristorController.Dfs.FatContent
import ThyristorController.Dfs.FatRead
import ThyristorController.Dfs.FatWrite
import ThyristorController.Dfs.FatSeek
import ThyristorController.Dfs.FatSync
import ThyristorController.Dfs.FatRun
import ThyristorController.Dfs.NormalizePath
import ThyristorController.Dfs.Lookup
import ThyristorController.Dfs.Mount
import ThyristorController.Dfs.Descriptors
import ThyristorController.Dfs.Poll
import ThyristorController.Dfs.Select
import ThyristorController.Drivers.Pwm
import ThyristorController.Drivers.PwmTiming
import ThyristorController.Drivers.Hwtimer
import ThyristorController.Drivers.HwtimerRead
import ThyristorController.Drivers.PinIrq
import ThyristorController.Drivers.PulseGenerate
import ThyristorController.Utilities.YmodemReceiver
import ThyristorController.Utilities.YmodemCrc
import ThyristorController.Utilities.YmodemSender
import ThyristorController.Utilities.YmodemBatch
import ThyristorController.Utilities.YmodemAcks
import ThyristorController.Finsh.Msh
import ThyristorController.Drivers.SerialRx
import ThyristorController.Drivers.SerialTx
import ThyristorController.Drivers.WorkQueue
import ThyristorController.Drivers.WorkFlags
import ThyristorController.Drivers.WaitQueue
import ThyristorController.Drivers.Completion
import ThyristorController.Drivers.SerialFifo
import ThyristorController.Drivers.UsartDma
import ThyristorController.Drivers.SerialDmaRx
import ThyristorController.Drivers.RingBuffer
import ThyristorController.Drivers.RingForce
import ThyristorController.Drivers.RingBlock
import ThyristorController.Drivers.RingBlockQueue
import ThyristorController.Drivers.DataQueue
import ThyristorController.Drivers.SerialDmaTx
import ThyristorController.Drivers.Pipe
import ThyristorController.Drivers.PipeWrite
import ThyristorController.App.Adc
import ThyristorController.App.FilterLimit
import ThyristorController.App.Controller
import ThyristorController.App.Steps
import ThyristorController.App.Ramp
import ThyristorController.App.Serial
import ThyristorController.App.SerialWake
import ThyristorController.App.ParamFile
import ThyristorController.App.ParamUpdates
import ThyristorController.App.ParamCoherence
import ThyristorController.App.Tokens
import ThyristorController.App.StopRequests
import ThyristorController.App.Firing
import ThyristorController.App.ShutDown
import ThyristorController.App.SoftStart
import ThyristorController.App.Delay
import ThyristorController.App.SetPoint
import ThyristorController.App.Debounce
import ThyristorController.Finsh.Complete
import ThyristorController.Finsh.Shell
import ThyristorController.Finsh.ShellLine
import ThyristorController.Finsh.ShellRun
import ThyristorController.Finsh.ShellSafe
import ThyristorController.Finsh.ShellScreen
