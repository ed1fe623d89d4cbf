import HighJump.Lib.Lts
import HighJump.Lib.Threads
import HighJump.Lib.Loop
import HighJump.Lib.Memory
import HighJump.Lib.BlockModes
import HighJump.Lib.Streams
import HighJump.Lib.Zlib
import HighJump.Lib.Paths
import HighJump.Lib.Polyline
import HighJump.Lib.RowMajor
import HighJump.Lib.Towers
import HighJump.Lib.Evp
import HighJump.Lib.MachineInt
import HighJump.Lib.IntBits
import HighJump.Lib.Refine
import HighJump.Lib.CasLoop
import HighJump.Lib.Framing
import HighJump.Lib.Crc
import HighJump.Lib.CrcPoly
import HighJump.Lib.Format
import HighJump.Lib.Numerals
import HighJump.Lib.Tiling
import HighJump.Lib.Gregorian
import HighJump.Lib.Nth
import HighJump.Lib.Deferral
import HighJump.Lib.Ownership
import HighJump.Lib.StringVector
import HighJump.Lib.Occurrences
import HighJump.Lib.Chunks
import HighJump.Lib.UnorderedMap
import HighJump.Lib.Base64
import HighJump.Lib.ChunkScan
import HighJump.Lib.Conversion
import HighJump.Algo.Snowflake
import HighJump.Algo.SnowflakeTheorems
import HighJump.Algo.Uuid
import HighJump.Algo.AStar
import HighJump.Algo.AStarTurn
import HighJump.Algo.AStarTheorems
import HighJump.Algo.AStarLinks
import HighJump.Algo.AStarCircles
import HighJump.Algo.AStarSoundness
import HighJump.Algo.AStarLimit
import HighJump.Algo.AStarSmooth
import HighJump.Algo.Skiplist
import HighJump.Algo.SkiplistRep
import HighJump.Algo.SkiplistInsert
import HighJump.Algo.SkiplistDelete
import HighJump.Algo.SkiplistSpec
import HighJump.Algo.SkiplistTheorems
import HighJump.Algo.SkiplistRuns
import HighJump.Algo.SkiplistQueries
import HighJump.Algo.SkiplistQueryTheorems
import HighJump.Algo.SkiplistRank
import HighJump.Algo.Crc
import HighJump.Algo.CrcTheorems
import HighJump.Algo.ModbusChaining
import HighJump.Algo.BloomFilter
import HighJump.Algo.BloomFilterTheorems
import HighJump.Algo.BloomFilterRuns
import HighJump.Testing.ErrorHandler
import HighJump.Testing.ErrorHandlerTheorems
import HighJump.Db.ConnPool
import HighJump.Db.ConnPoolTheorems
import HighJump.Db.TransGuard
import HighJump.Db.Redis
import HighJump.Db.RedisTheorems
import HighJump.Crypto.Des
import HighJump.Crypto.DesBuffer
import HighJump.Crypto.DesPadding
import HighJump.Crypto.DesTheorems
import HighJump.Crypto.DesBounds
import HighJump.Crypto.DesStream
import HighJump.Crypto.Aes
import HighJump.Crypto.AesSession
import HighJump.Crypto.AesPadding
import HighJump.Crypto.AesUnpadding
import HighJump.Crypto.AesTheorems
import HighJump.Crypto.AesStream
import HighJump.Crypto.AesBounds
import HighJump.Crypto.Rsa
import HighJump.Crypto.RsaTheorems
import HighJump.Crypto.RsaBuffers
import HighJump.Crypto.RsaKeygen
import HighJump.Crypto.Base64
import HighJump.Crypto.Base64Theorems
import HighJump.Compress.Gzip
import HighJump.Compress.SampleMember
import HighJump.Compress.GzipTheorems
import HighJump.Compress.GzipStream
import HighJump.Compress.GzipRoundTrip
import HighJump.Compress.GzipLimit
import HighJump.Compress.GzipWrites
import HighJump.Compress.GzipChunks
import HighJump.Encoding.Bits
import HighJump.Encoding.BitsTheorems
import HighJump.Encoding.Bytes
import HighJump.Encoding.BytesTheorems
import HighJump.Encoding.Hex
import HighJump.Encoding.HexTheorems
import HighJump.Encoding.HexIntegral
import HighJump.Encoding.Utf8
import HighJump.Encoding.Utf8Theorems
import HighJump.Encoding.Utf8Validity
import HighJump.Ai.Qrcode
import HighJump.Ai.QrcodeTheorems
import HighJump.Ai.QrcodeBuilder
import HighJump.Ai.QrcodeBuilderTheorems
import HighJump.Ai.VectorIndex
import HighJump.Ai.VectorIndexTheorems
import HighJump.Ai.LlamaModel
import HighJump.Ai.LlamaModelTheorems
import HighJump.Io.ChainBuffer
import HighJump.Io.ChainBufferTheorems
import HighJump.Io.ChainBufferEnds
import HighJump.Io.Dbuffer
import HighJump.Io.DbufferTheorems
import HighJump.Io.Filepath
import HighJump.Sync.Counter
import HighJump.Sync.CounterTheorems
import HighJump.Sync.CounterThreads
import HighJump.Sync.ThreadPool
import HighJump.Sync.ThreadPoolTheorems
import HighJump.Sync.StripedMap
import HighJump.Sync.StripedMapTheorems
import HighJump.Math.Matrix
import HighJump.Math.MatrixTheorems
import HighJump.Math.MatrixHeap
import HighJump.Math.MatrixHeapTheorems
import HighJump.Net.TcpConnRecv
import HighJump.Net.TcpConnRecvTheorems
import HighJump.Net.TcpConnSend
import HighJump.Net.TcpConnSendTheorems
import HighJump.Net.WsServer
import HighJump.Net.WsServerTheorems
import HighJump.Net.WsAccept
import HighJump.Net.WsAcceptTheorems
import HighJump.Net.TcpListener
import HighJump.Net.TcpListenerTheorems
import HighJump.Net.TcpSocket
import HighJump.Net.TcpSocketTheorems
import HighJump.Net.WsClient
import HighJump.Net.WsClientTheorems
import HighJump.Util.RegexCache
import HighJump.Util.RegexCacheTheorems
import HighJump.Util.StringUtil
import HighJump.Util.WideString
import HighJump.Util.WideStringTheorems
import HighJump.Util.License
import HighJump.Util.LicenseTheorems
import HighJump.Util.LicenseVerifier
import HighJump.Util.LicenseQuota
import HighJump.Time.DateTime
import HighJump.Time.DateTimeTheorems
import HighJump.Time.Epoch
import HighJump.Time.Stepping
import HighJump.Time.Periods
import HighJump.Time.WorkingDays
import HighJump.Lib.Multipart
import HighJump.Net.Zmq
import HighJump.Net.ZmqTheorems
import HighJump.Net.TcpDialer
import HighJump.Net.TcpDialerTheorems
import HighJump.Net.TcpConnSync
import HighJump.Net.TcpConnSyncTheorems
import HighJump.Lib.Traversal
import HighJump.Sync.StripedMapThreads
import HighJump.Sync.StripedMapThreadsTheorems
import HighJump.Os.Signal
import HighJump.Os.SignalTheorems
import HighJump.Net.TcpConnect
import HighJump.Net.TcpConnectTheorems
import HighJump.Time.Weekdays
import HighJump.Ai.VectorIndexSave
import HighJump.Ai.VectorIndexSaveTheorems
import HighJump.Lib.Handles
import HighJump.Db.DbConn
import HighJump.Db.Sqlite
import HighJump.Db.SqliteTheorems
import HighJump.Db.RedisConn
import HighJump.Db.RedisConnTheorems
import HighJump.Crypto.Base64Stream
import HighJump.Crypto.Base64StreamTheorems
import HighJump.Io.CopyDir
import HighJump.Ai.QrcodeFile
import HighJump.Algo.SkiplistLifecycle
import HighJump.Net.ZmqPoller
import HighJump.Lib.Digest
import HighJump.Crypto.Digest
import HighJump.Lib.Leases
import HighJump.Sync.ObjectPool
import HighJump.Apps.DataMgr
import HighJump.Crypto.AesString
import HighJump.Util.CString
import HighJump.Apps.CryptoCore
import HighJump.Apps.CryptoCoreTheorems
