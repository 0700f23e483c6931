import Muduo.Base.Any
import Muduo.Base.BoundedBlockingQueue
import Muduo.Base.MinHeapQueue
import Muduo.Base.MinHeapStorage
import Muduo.Base.Mutex
import Muduo.Base.ThreadPool
import Muduo.Base.ThreadPoolStop
import Muduo.Http.HttpIsolation
import Muduo.Http.HttpConnection
import Muduo.Http.HttpErrors
import Muduo.Http.HttpFraming
import Muduo.Http.HttpClosingRuns
import Muduo.Json.JsonFile
import Muduo.Json.JsonLookup
import Muduo.Json.JsonNumber
import Muduo.Json.JsonSerialize
import Muduo.Json.JsonStrings
import Muduo.Net.BufferBounds
import Muduo.Net.InetAddr
import Muduo.Net.ChannelEvent
import Muduo.Net.ChannelOwner
import Muduo.Net.ConnectionNames
import Muduo.Net.Acceptor
import Muduo.Net.ActiveChannels
import Muduo.Net.EventList
import Muduo.Net.EventLoopQuit
import Muduo.Net.EventLoopThreadPool
import Muduo.Net.EventLoopWakeup
import Muduo.Net.LoopConfinement
import Muduo.Net.SendNesting
import Muduo.Net.TcpFile
import Muduo.Net.TcpInput
import Muduo.Net.TcpPairLive
import Muduo.Net.TimerCancel
import Muduo.Net.TimerArming
