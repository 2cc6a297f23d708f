import StudyDoc.Lib.Monitor
import StudyDoc.Lib.Transition
import StudyDoc.Net.PollServer
import StudyDoc.Net.PollTurns
import StudyDoc.Net.Server
import StudyDoc.Net.Syscall
import StudyDoc.Thread.Latch
import StudyDoc.Thread.Queue
import StudyDoc.Thread.StockFactory
import StudyDoc.Thread.SharedFactory
import StudyDoc.Thread.Observer
import StudyDoc.Thread.Notify
import StudyDoc.Net.MyRead
import StudyDoc.Lib.Lines
import StudyDoc.Net.Readline
import StudyDoc.Lib.DList
import StudyDoc.Memory.Pool
import StudyDoc.Memory.PoolOwner
import StudyDoc.Lib.OnesComplement
import StudyDoc.Net.Cksum
import StudyDoc.Lib.Access
import StudyDoc.Net.Ping
import StudyDoc.Lib.Ledger
import StudyDoc.Memory.SharedMmap
import StudyDoc.Net.MsgOpen
import StudyDoc.Net.Zombie
import StudyDoc.Net.StrCli
import StudyDoc.Net.StrCliOutput
import StudyDoc.Lib.Guarded
import StudyDoc.Net.StrCliEcho
import StudyDoc.Thread.ProduceConsume
import StudyDoc.Net.Readn
import StudyDoc.Algorithm.MaxSubSequenceSum
import StudyDoc.Lib.Refcount
import StudyDoc.Memory.PointerLike
import StudyDoc.Net.MqNotify
import StudyDoc.Thread.NReady
import StudyDoc.Net.WebClient
import StudyDoc.Lib.CStruct
import StudyDoc.Memory.PoolNew
import StudyDoc.Net.HardError
import StudyDoc.Lib.Sweep
import StudyDoc.Thread.Observable
import StudyDoc.Lib.CString
import StudyDoc.Lib.Decimal
import StudyDoc.Net.MsgArgs
import StudyDoc.Lib.Leak
import StudyDoc.Net.IfConf
import StudyDoc.Net.IfiInfo
import StudyDoc.Net.ConnectNonb
import StudyDoc.Net.HomePage
import StudyDoc.Net.WebEvents
import StudyDoc.Algorithm.InsertionSort
import StudyDoc.Algorithm.SearchValueByArray
import StudyDoc.Algorithm.InsertSort
import StudyDoc.Algorithm.InsertSort2
import StudyDoc.Algorithm.SearchTree
import StudyDoc.Algorithm.ArrayQueue
import StudyDoc.Kernel.Scull
import StudyDoc.Algorithm.HashQuad
import StudyDoc.Lib.BestFit
import StudyDoc.Lib.Words
import StudyDoc.Zend.Bits
import StudyDoc.Zend.Pages
import StudyDoc.Lib.FreeList
import StudyDoc.Zend.Small
import StudyDoc.Thread.EventLoopThreadPool
import StudyDoc.Zend.Signal
import StudyDoc.Memory.ValueLike
import StudyDoc.Zend.Arena
import StudyDoc.Kernel.ScullFollow
import StudyDoc.Redis.BloomFilter
