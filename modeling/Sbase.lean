import Sbase.Lib.Memory
import Sbase.Lib.Runs
import Sbase.Lib.LinkedList
import Sbase.Lib.Framing
import Sbase.Lib.PointerTree
import Sbase.Lib.Slots
import Sbase.Lib.Bisect
import Sbase.Lib.BlockTree
import Sbase.Utils.Mmblock
import Sbase.Utils.MmblockQueue
import Sbase.Utils.MmblockString
import Sbase.Utils.Evtimer
import Sbase.Utils.EvtimerList
import Sbase.Utils.EvtimerInvariant
import Sbase.Utils.Xtree64
import Sbase.Utils.Xtree64Layout
import Sbase.Utils.Xtree64Container
import Sbase.Conn.State
import Sbase.Conn.Timeout
import Sbase.Conn.TimerOwnership
import Sbase.Utils.Chunk
import Sbase.Utils.ChunkContent
import Sbase.Utils.ChunkFill
import Sbase.Conn.Send
import Sbase.Conn.SendPool
import Sbase.Conn.SendEvents
import Sbase.Conn.SendStream
import Sbase.Conn.Recv
import Sbase.Conn.RecvSteps
import Sbase.Conn.ReadHandler
import Sbase.Conn.FramingRule
import Sbase.Conn.Segmentation
import Sbase.Conn.FramingRuns
import Sbase.Http.Request
import Sbase.Http.Chunked
import Sbase.Http.Argv
import Sbase.Service.State
import Sbase.Service.Table
import Sbase.Service.Pool
import Sbase.Utils.Mtrie
import Sbase.Utils.MtrieLayout
import Sbase.Utils.MtrieAlloc
import Sbase.Utils.MtrieMap
import Sbase.Utils.MtrieNodes
import Sbase.Http.HeaderMap
import Sbase.Http.Base64
import Sbase.Http.RequestParse
import Sbase.Http.RequestBounds
import Sbase.Http.HeaderField
import Sbase.Http.HeaderValues
import Sbase.Event.Evbase
import Sbase.Event.Backends
import Sbase.Message.Qmessage
import Sbase.Message.QmessageQueue
import Sbase.Event.Registered
import Sbase.Lib.Fairness
import Sbase.Procthread.Loop
import Sbase.Procthread.Evsig
import Sbase.Procthread.CondWait
import Sbase.Procthread.EventLoop
import Sbase.Conn.Proxy
import Sbase.Service.Refill
import Sbase.Service.Groups
import Sbase.Xhttpd.Range
import Sbase.Lib.Paths
import Sbase.Xhttpd.Path
import Sbase.Utils.EvtimerTurns
import Sbase.Utils.EvtimerReset
import Sbase.Conn.Delimiter
import Sbase.Utils.Xqueue
import Sbase.Utils.XqueueIsolation
import Sbase.Service.Registry
import Sbase.Lib.FuelLoop
import Sbase.Dns.Evdns
import Sbase.Dns.ExpandName
import Sbase.Dns.ReplyBounds
import Sbase.Dns.QueryRoundTrip
import Sbase.Lqftp.Task
import Sbase.Lqftp.ReadyTable
import Sbase.Lqftp.TransferOrder
import Sbase.Xhttpd.Encoders
import Sbase.Xhttpd.Compress
import Sbase.Xhttpd.CompressCache
import Sbase.Service.Broadcast
import Sbase.Service.CloseGroup
import Sbase.Service.GroupId
import Sbase.Utils.ChunkBounds
import Sbase.Utils.ChunkFile
import Sbase.Conn.Traffic
import Sbase.Conn.Recv2Chunk
import Sbase.Event.Reuse
import Sbase.Service.NewProxy
import Sbase.Service.Addconn
import Sbase.Lib.PagePool
import Sbase.Hido.Db
import Sbase.Hido.BlockStore
import Sbase.Hido.RecordMap
import Sbase.Lib.ReflectedCrc
import Sbase.Http.Crc32
import Sbase.Http.Base64RoundTrip
import Sbase.Http.CookieRoundTrip
import Sbase.Http.ArgvTable
import Sbase.Http.CookieTable
import Sbase.Http.TableBounds
import Sbase.Http.ChunkedBounds
import Sbase.Utils.MtrieIds
import Sbase.Xhttpd.Namemap
import Sbase.Http.ResponseParse
import Sbase.Http.ResponseBounds
import Sbase.Lib.Separated
import Sbase.Http.ResponseText
import Sbase.Http.TokenKinds
import Sbase.Http.CookieLine
import Sbase.Http.ResponseCookies
import Sbase.Utils.MtrieReverse
import Sbase.Utils.MtrieFind
import Sbase.Utils.ChunkWindow
import Sbase.Utils.Xtree64Exhaustion
import Sbase.Lib.Lines
import Sbase.Utils.MtrieImport
import Sbase.Lqftp.StatusFile
import Sbase.Dns.ReplyDecode
import Sbase.Xhttpd.NotModified
import Sbase.Hido.KeyedDelete
import Sbase.Service.ShutdownOnce
import Sbase.Service.Incarnations
import Sbase.Lqftp.Md5Stream
import Sbase.Ini.DictionaryMap
import Sbase.Ini.Iniparser
import Sbase.Ini.RoundTrip
import Sbase.Lqftp.Server
import Sbase.Lqftp.Transfer
import Sbase.Lqftp.TransferRuns
import Sbase.Lqftp.TransferSums
import Sbase.Hido.Sessions
