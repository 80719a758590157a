import Tnode.Framing
import Tnode.Transitions
import Tnode.Spinlock
import Tnode.LockfreeQueue
import Tnode.LockfreeMap
import Tnode.ByteBuffer
import Tnode.Servicemessage
import Tnode.Kernel
import Tnode.Socket
import Tnode.SocketReceive
import Tnode.SocketStream
import Tnode.ReadSocket
import Tnode.SocketSend
import Tnode.SendThreads
import Tnode.Link
import Tnode.Holdings
import Tnode.Node
import Tnode.EventLoop
import Tnode.NodeSteps
import Tnode.NodeOwnership
import Tnode.NodeFd
import Tnode.Requests
import Tnode.ServiceThreads
import Tnode.Schedule
import Tnode.Lifecycle
import Tnode.FloatFormat
import Tnode.Lua
import Tnode.Descriptor
import Tnode.MessageParser
import Tnode.ScalarRoundTrip
import Tnode.DecodedTables
import Tnode.Sequences
import Tnode.VisitOrder
import Tnode.EncodeFields
import Tnode.RoundTrip
import Tnode.Conform
import Tnode.TableRoundTrip
import Tnode.RegisteredMessages
import Tnode.Base64
import Tnode.Bindings
import Tnode.ResponseHeader
import Tnode.SocketThreads
import Tnode.SocketTable
import Tnode.InitService
import Tnode.ThreadPool
import Tnode.TaskQueue
import Tnode.Easylog
import Tnode.LoggerWakeups
import Tnode.Assignments
import Tnode.JsonCallback
import Tnode.JsonLiterals
import Tnode.JsonDocument
import Tnode.JsonMeaning
import Tnode.JsonSound
import Tnode.JsonParser
import Tnode.JsonSteps
import Tnode.JsonText
import Tnode.JsonContexts
import Tnode.Block
import Tnode.JsonMemory
import Tnode.JsonMemorySteps
import Tnode.JsonMemorySafe
import Tnode.JsonMemoryRuns
import Tnode.JsonDecode
import Tnode.Utf8
import Tnode.JsonEncode
import Tnode.JsonEscapes
import Tnode.JsonReread
import Tnode.JsonLiteralsRead
import Tnode.JsonStrings
import Tnode.JsonDecimal
import Tnode.JsonDump
import Tnode.JsonRoundTrip
import Tnode.ByteBufferQueue
import Tnode.FixedValues
import Tnode.BufferGrowth
import Tnode.JsonStacks
import Tnode.JsonDecodedChars
import Tnode.JsonEscapeReads
import Tnode.SocketIndex
import Tnode.Walks
import Tnode.LuaHeap
import Tnode.EncodeStack
import Tnode.EncodeTermination
import Tnode.ServiceStack
import Tnode.HttpParser
import Tnode.HttpScanning
import Tnode.HttpParts
import Tnode.HttpRequest
import Tnode.HttpBodyLength
import Tnode.HttpArrival
import Tnode.Utf8Groups
import Tnode.Utf8Strings
import Tnode.SplitString
import Tnode.TraverseDirectory
import Tnode.Calendar
import Tnode.LogFiles
import Tnode.LogNodes
import Tnode.ConfigRegistry
import Tnode.XmlDecode
import Tnode.XmlParse
import Tnode.XmlText
import Tnode.XmlAccepted
import Tnode.Settings
import Tnode.DesText
import Tnode.DecodeJscode
