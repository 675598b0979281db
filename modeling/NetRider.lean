import NetRider.Lib.Run
import NetRider.Lib.KeyIndex
import NetRider.Lib.IntrusiveList
import NetRider.Lib.Lists
import NetRider.Lib.OrderedMap
import NetRider.Lib.Bytes
import NetRider.Lib.Comparison
import NetRider.Lib.StepFunction
import NetRider.Lib.RangeList
import NetRider.Lib.DecimalDigits
import NetRider.Lib.Unicode
import NetRider.Lib.Transcoding
import NetRider.Lib.MachineInts
import NetRider.Lib.Slots
import NetRider.Lib.PopulationCount
import NetRider.Lib.Probing
import NetRider.Storage.StorageMap
import NetRider.Storage.StorageAreas
import NetRider.Storage.Settled
import NetRider.Storage.Drain
import NetRider.Storage.ProcessInvariant
import NetRider.Storage.Agreement
import NetRider.Storage.RemoteClear
import NetRider.Ipc.ConnectionUnix
import NetRider.Ipc.Delivery
import NetRider.Ipc.Framing
import NetRider.Ipc.UntrustedBytes
import NetRider.Ipc.ArgumentCoders
import NetRider.Ipc.RoundTrip
import NetRider.Idb.KeyCoding
import NetRider.Idb.KeyOrder
import NetRider.Idb.LevelDBKeys
import NetRider.Idb.LevelDBKeyDecoding
import NetRider.Idb.LevelDBKeyTokens
import NetRider.Idb.Comparator
import NetRider.Idb.ComparatorOrder
import NetRider.Idb.KeyDecoding
import NetRider.Idb.RangeKeys
import NetRider.Idb.CorruptBytes
import NetRider.Idb.KeyPath
import NetRider.Idb.TransactionCoordinator
import NetRider.LevelDb.Transaction
import NetRider.LevelDb.Overlay
import NetRider.LevelDb.Iteration
import NetRider.Ui.BackForwardList
import NetRider.Ui.RemovedItems
import NetRider.Graphics.Region
import NetRider.Graphics.RegionShape
import NetRider.Graphics.RegionQueries
import NetRider.Graphics.RegionAlgebra
import NetRider.Graphics.RegionComparison
import NetRider.Graphics.PlatformTimeRanges
import NetRider.Wtf.Strings
import NetRider.Wtf.IntegralTypes
import NetRider.Wtf.IntegralReading
import NetRider.Wtf.HexNumber
import NetRider.Network.FormDataBuilder
import NetRider.Network.HTTPParsers
import NetRider.Text.QuotedPrintable
import NetRider.Text.EscapeSequences
import NetRider.Page.SecurityOrigin
import NetRider.Wtf.MetaAllocator
import NetRider.Wtf.FreeSpaceIndex
import NetRider.Wtf.FreeSpaceOps
import NetRider.Wtf.FreeSpaceInvariant
import NetRider.Wtf.FreeSpaceRuns
import NetRider.Wtf.PageOccupancy
import NetRider.Wtf.PageRuns
import NetRider.Wtf.MediaTime
import NetRider.Wtf.MediaTimeSums
import NetRider.Wtf.UTF8
import NetRider.Wtf.UTF8Conversion
import NetRider.Wtf.StringHasher
import NetRider.Wtf.CheckedArithmetic
import NetRider.Wtf.Checked
import NetRider.Wtf.Deque
import NetRider.Wtf.DequeLayout
import NetRider.Wtf.DequeRuns
import NetRider.Wtf.BitVector
import NetRider.Wtf.BitVectorSets
import NetRider.Wtf.BitVectorCounts
import NetRider.Wtf.BitVectorRuns
import NetRider.Wtf.HashTable
import NetRider.Wtf.HashTableProbes
import NetRider.Wtf.HashTableSizes
import NetRider.Wtf.HashTableOperations
import NetRider.Wtf.HashTableRuns
import NetRider.Wtf.UTF8Keys
import NetRider.Wtf.UTF8Strings
import NetRider.Wtf.Base64
import NetRider.Wtf.Base64RoundTrip
import NetRider.Wtf.Base64Language
import NetRider.Lib.Replacement
import NetRider.Text.Codec
import NetRider.Text.Sequences
import NetRider.Text.Turns
import NetRider.Text.Passes
import NetRider.Text.SecondPass
import NetRider.Text.FirstPass
import NetRider.Text.BufferBounds
import NetRider.Text.Chunks
import NetRider.Text.MixedBytes
import NetRider.Blob.BlobResourceHandle
import NetRider.Blob.SyncLoad
import NetRider.Blob.RangeLoads
import NetRider.Blob.RangeHeaders
import NetRider.Blob.AsyncTurns
import NetRider.Blob.AsyncLoads
import NetRider.Csp.SourceList
import NetRider.Csp.SourceGrammar
import NetRider.Csp.SourceParsing
import NetRider.Csp.SourceMatching
import NetRider.Json.LiteralParser
import NetRider.Json.Grammar
import NetRider.Json.StringTokens
import NetRider.Json.NumberTokens
import NetRider.Json.Lexing
import NetRider.Json.Parsing
import NetRider.Json.Values
import NetRider.Json.StrictJSON
import NetRider.Json.Jsonp
import NetRider.Loader.MemoryCache
import NetRider.Loader.CacheBooks
import NetRider.Loader.CacheAccounting
import NetRider.Loader.CacheClients
import NetRider.Loader.CacheRevalidation
import NetRider.Loader.CacheRuns
import NetRider.Browser.Tabs
import NetRider.Browser.Downloads
import NetRider.Browser.SaveTarget
import NetRider.Browser.Preferences
import NetRider.Browser.BookmarkWindow
import NetRider.Browser.BookmarkLink
import NetRider.Browser.History
import NetRider.Browser.SearchQuery
import NetRider.Browser.DownloadPath
import NetRider.WebSockets.WebSocketFrame
import NetRider.Platform.Decimal
import NetRider.Platform.DecimalComparison
import NetRider.Platform.DecimalRounding
import NetRider.Platform.UInt128
import NetRider.Platform.DecimalProducts
import NetRider.Platform.DecimalQuotients
import NetRider.Platform.DecimalFromString
import NetRider.Platform.DecimalReading
import NetRider.Platform.DecimalToString
import NetRider.Url.TextCodecUTF8
import NetRider.Url.EscapeSequences
import NetRider.Wtf.DateMath
import NetRider.Platform.DateText
import NetRider.Platform.DateLimits
import NetRider.Platform.TimeZones
import NetRider.Platform.DateRoundTrip
import NetRider.Gif.LZWContext
import NetRider.Gif.OutputRow
import NetRider.Gif.RowCalls
import NetRider.Gif.LZWSafety
import NetRider.Lib.LempelZivWelch
import NetRider.Gif.LZWTextbook
import NetRider.Wtf.MediaTimeScale
import NetRider.Loader.CacheEmptying
import NetRider.Html.FormattingElementList
import NetRider.VisitedLinks.VisitedLinkNotices
import NetRider.Platform.SharedBufferData
import NetRider.Css.SelectorFilter
import NetRider.Html.CharacterReference
import NetRider.Wtf.UTF8Sequences
import NetRider.Runtime.URICoding
import NetRider.Lib.BitSmearing
import NetRider.Texmap.AreaAllocator
import NetRider.Texmap.AreaTree
import NetRider.Texmap.AreaRuns
import NetRider.Lib.CopyOnWrite
import NetRider.Storage.SessionAreas
import NetRider.Storage.SessionRuns
import NetRider.Ipc.DecoderSafety
import NetRider.WebSockets.FrameStreams
import NetRider.WebSockets.WebSocketChannel
import NetRider.WebSockets.Receiving
