import MprMq.Lib.Run
import MprMq.Lib.Cursor
import MprMq.Lib.Recency
import MprMq.Lib.SizeT
import MprMq.Lib.Monitor
import MprMq.Lib.Population
import MprMq.Lib.Numeral
import MprMq.Lib.Buffer
import MprMq.Lib.LittleEndian
import MprMq.Lib.Access
import MprMq.Lib.Calendar
import MprMq.Lib.NodeList
import MprMq.Lib.Heap
import MprMq.Db.StatementCacheData
import MprMq.Db.StatementCache
import MprMq.Db.StatementLife
import MprMq.Db.ConnectionInfo
import MprMq.Db.ConnectionText
import MprMq.Db.ConnectionPool
import MprMq.Db.PoolSystem
import MprMq.Db.PoolSize
import MprMq.Db.ConnectionPlace
import MprMq.Db.PoolOwnership
import MprMq.Db.ConnectionFlags
import MprMq.Db.PoolExpiry
import MprMq.Db.PoolRecycling
import MprMq.Db.ManagerGC
import MprMq.Db.ConnectionManager
import MprMq.Db.MysqlHandles
import MprMq.Db.StatementCalls
import MprMq.Db.MysqlDirectStatement
import MprMq.Db.MysqlPreparedStatement
import MprMq.Db.SameValues
import MprMq.Db.BindAll
import MprMq.Db.BindColumns
import MprMq.Db.MysqlDirectResult
import MprMq.Db.Result
import MprMq.Db.NextRow
import MprMq.Db.ColumnByName
import MprMq.Db.IntoTag
import MprMq.Db.Transaction
import MprMq.Db.TimeString
import MprMq.Db.IntProperty
import MprMq.Db.PreparedBuffers
import MprMq.Db.FetchLoop
import MprMq.Base.Status
import MprMq.Base.StringUtil
import MprMq.Base.FilePath
import MprMq.Base.DirName
import MprMq.Base.PathComponents
import MprMq.Base.CreateDirectory
import MprMq.Base.PathAppend
import MprMq.Base.PathCollapse
import MprMq.Base.RelativePath
import MprMq.Base.PathExtension
import MprMq.Base.TextContents
import MprMq.Base.ContentsEqual
import MprMq.Base.ReadFile
import MprMq.Base.CopyFile
import MprMq.Base.DirReader
import MprMq.Base.FileEnumerator
import MprMq.Base.TreePaths
import MprMq.Base.Enumeration
import MprMq.Base.Disk
import MprMq.Base.DeleteFile
import MprMq.Lib.Loop
import MprMq.Lib.SelfDelimiting
import MprMq.Lib.Scan
import MprMq.Lib.Forest
import MprMq.Base.Numbers
import MprMq.Base.Numerals
import MprMq.Base.StringAsValue
import MprMq.Base.Utf8
import MprMq.Base.StringPiece
import MprMq.Base.ScopedFile
import MprMq.Base.WriteFile
import MprMq.Base.SearchesAgree
import MprMq.Base.TrimString
import MprMq.Base.HexEncode
import MprMq.Base.HexFormat
import MprMq.Base.Pickle
import MprMq.Base.PickleIterator
import MprMq.Base.PickleRoundTrip
import MprMq.Base.PickleReadBack
import MprMq.Base.PickleImage
import MprMq.Base.PickleSizer
import MprMq.Base.PickleFrames
import MprMq.Base.PickleHeap
import MprMq.Base.PickleCopies
import MprMq.Base.Time
import MprMq.Base.TimeRoundTrip
import MprMq.Base.LocalTime
import MprMq.Base.OnceInit
import MprMq.Base.RefCounted
import MprMq.Server.AmqpServer
import MprMq.Server.ServerJoin
import MprMq.Server.ServerRuns
import MprMq.Server.RemoveService
import MprMq.Service.Message
import MprMq.Service.EpubInfo
import MprMq.Service.EpubCatalog
import MprMq.Service.Transcoder
import MprMq.Service.AllOrNothing
import MprMq.Service.HandlersReturn
import MprMq.Service.DirectoryLoop
import MprMq.Service.ReplaceAll
import MprMq.Threading.ThreadManager
import MprMq.Threading.WorkerCore
import MprMq.Threading.SectionCases
import MprMq.Threading.WorkerSteps
import MprMq.Threading.WorkerCount
import MprMq.Threading.StepFrames
import MprMq.Threading.CallSteps
import MprMq.Threading.TaskPush
import MprMq.Threading.ControlFrame
import MprMq.Threading.Growth
import MprMq.Threading.IdleWorkers
import MprMq.Threading.WorkerIds
import MprMq.Threading.TotalTasks
import MprMq.Threading.Stopper
import MprMq.Threading.StopOrder
import MprMq.Threading.WorkerRemoval
import MprMq.Threading.TaskLedger
import MprMq.Threading.TaskPlaces
import MprMq.Threading.TaskOrder
import MprMq.Threading.TaskExpiry
import MprMq.Threading.TaskDrain
import MprMq.Threading.WaitForRoom
import MprMq.Threading.PthreadThread
import MprMq.Threading.TimeUtil
import MprMq.Lib.Keyed
import MprMq.Lib.SiblingTree
import MprMq.Epub.PathUtil
import MprMq.Epub.XmlTree
import MprMq.Epub.Package
import MprMq.Epub.PackageReading
import MprMq.Epub.PackageWriter
import MprMq.Epub.SubPackage
import MprMq.Epub.NavCatalog
import MprMq.Epub.Unzip
import MprMq.Epub.UnzipRecords
import MprMq.Epub.UnzipSearch
import MprMq.Epub.ZipListing
import MprMq.Epub.ZipOpening
import MprMq.Epub.ZipStream
import MprMq.Epub.ZipArchive
import MprMq.Epub.ZipReading
import MprMq.Epub.ZipBooks
import MprMq.Epub.BookInfo
import MprMq.Service.EpubFiles
import MprMq.Epub.ZipInflate
import MprMq.Epub.Utf8Util
import MprMq.Lib.Scoped
import MprMq.Threading.Guards
