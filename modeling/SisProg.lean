import SisProg.Lib.Machine
import SisProg.Lib.Ledger
import SisProg.Lib.Threads
import SisProg.Lib.Tickets
import SisProg.Lib.Dispatcher
import SisProg.Lib.Bytes
import SisProg.Lib.Words
import SisProg.Lib.Decimal
import SisProg.Lib.Printf
import SisProg.Lib.Regex
import SisProg.Lib.Fallible
import SisProg.Lib.FileSystem
import SisProg.Lib.Selector
import SisProg.Scheduler.Conservation
import SisProg.Scheduler.Shutdown
import SisProg.Scheduler.Wakeup
import SisProg.Scheduler.QueueOrder
import SisProg.Relay.Logging
import SisProg.Relay.EventLoop
import SisProg.Relay.Descriptors
import SisProg.Relay.Receiver
import SisProg.Relay.Startup
import SisProg.Http.HTTPRequest
import SisProg.Http.Execute
import SisProg.Http.HTTPResponse
import SisProg.Http.HTTPServer
import SisProg.Http.Confinement
import SisProg.Http.Connection
import SisProg.Http.FileResponse
import SisProg.Http.Grammar
import SisProg.Http.ContentType
import SisProg.Http.Serialization
import SisProg.Http.Sending
import SisProg.Http.Port
import SisProg.Http.Socket
import SisProg.Mojbash.Scanner
import SisProg.Mojbash.Main
import SisProg.Mojbash.TokenSafety
import SisProg.Mojbash.TokenArray
import SisProg.Mojbash.Redirection
import SisProg.Mojbash.Execute
import SisProg.Mojbash.ReadEval
import SisProg.Mojbash.Mojcat
import SisProg.Mojbash.Mojtouch
import SisProg.Mojbash.Mojls
import SisProg.Mojbash.ShellEnv
import SisProg.PipeFifo.Chat
import SisProg.PipeFifo.Broadcast
import SisProg.PipeFifo.Relay
import SisProg.PipeFifo.SigchldHandler
import SisProg.Lib.Exchange
import SisProg.Threads.Elements
import SisProg.Threads.Balance
import SisProg.Threads.Deadlock
import SisProg.Threads.ConsWork
import SisProg.Threads.Handover
import SisProg.Threads.MultipleConsWork
import SisProg.Threads.DeliveredOnce
import SisProg.Threads.NeverFinished
import SisProg.Terminal.ProcessTerm
import SisProg.Terminal.Main
import SisProg.Mojbash.Concatenation
import SisProg.Mojbash.EchoSession
import SisProg.Http.Answer
import SisProg.Http.Children
import SisProg.PipeFifo.LoggerFifo
import SisProg.Threads.Cond
import SisProg.Lib.Sections
import SisProg.Threads.Counter
import SisProg.Scheduler.Log
import SisProg.Scheduler.TaskLog
import SisProg.Threads.Finish
import SisProg.Threads.Cond1
import SisProg.Threads.Worker
import SisProg.Http.Main
import SisProg.Http.Logger
import SisProg.Relay.Orphans
import SisProg.Provjera4.Pipe
import SisProg.Threads.Decrement
