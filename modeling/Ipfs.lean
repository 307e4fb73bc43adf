import Ipfs.Lib.Outcome
import Ipfs.Lib.Leb128
import Ipfs.Lib.Wire
import Ipfs.Lib.Conversion
import Ipfs.Lib.DupSort
import Ipfs.Lib.LinkedList
import Ipfs.Lib.Run
import Ipfs.Lib.Schema
import Ipfs.Lib.Text
import Ipfs.Lib.SerialOrder
import Ipfs.Lib.Base58
import Ipfs.Lib.Heap
import Ipfs.Lib.Json
import Ipfs.Protobuf.Primitives
import Ipfs.Protobuf.Scan
import Ipfs.Protobuf.Trace
import Ipfs.Protobuf.Skims
import Ipfs.Codec.Cid
import Ipfs.Codec.Block
import Ipfs.Codec.BitswapBlock
import Ipfs.Codec.UnixFS
import Ipfs.Codec.Multihash
import Ipfs.Codec.Node
import Ipfs.Codec.Message
import Ipfs.Codec.Journal
import Ipfs.Codec.Windows
import Ipfs.Codec.NodeLinks
import Ipfs.Codec.LinkRemoval
import Ipfs.Codec.UnknownFields
import Ipfs.Codec.CidOrder
import Ipfs.Codec.CidText
import Ipfs.Codec.CidCast
import Ipfs.Codec.CidSet
import Ipfs.Store.Lmdb
import Ipfs.Store.LastWrite
import Ipfs.Store.EarliestTime
import Ipfs.Store.JournalConsistency
import Ipfs.Store.FsRepo
import Ipfs.Store.Known
import Ipfs.Store.Merkledag
import Ipfs.Store.AddGet
import Ipfs.Store.ReadBack
import Ipfs.Store.Config
import Ipfs.Store.Jsmn
import Ipfs.Store.JsmnTokens
import Ipfs.Store.JsmnModes
import Ipfs.Store.JsmnLexemes
import Ipfs.Store.JsmnLanguage
import Ipfs.Store.JsmnDocuments
import Ipfs.Store.HashCache
import Ipfs.Store.PutReport
import Ipfs.Store.Flatfs
import Ipfs.Journal.RoundTrip
import Ipfs.Journal.TimeMerge
import Ipfs.Journal.GetLast
import Ipfs.Journal.GetRecord
import Ipfs.Journal.Framing
import Ipfs.Journal.Freshness
import Ipfs.Journal.CompositeKey
import Ipfs.Importer.Importer
import Ipfs.Importer.Exporter
import Ipfs.Importer.Exporters
import Ipfs.Importer.Served
import Ipfs.Importer.Layout
import Ipfs.Importer.RoundTrip
import Ipfs.Importer.Resolver
import Ipfs.Importer.PathPrefix
import Ipfs.Importer.PathResolution
import Ipfs.Importer.Tree
import Ipfs.Importer.TreeLayout
import Ipfs.Importer.Metadata
import Ipfs.Importer.LinkSizes
import Ipfs.Importer.Failures
import Ipfs.Importer.Holes
import Ipfs.Bitswap.WireSchema
import Ipfs.Bitswap.Network
import Ipfs.Bitswap.ContentAddress
import Ipfs.Bitswap.Totality
import Ipfs.Bitswap.PeerRequest
import Ipfs.Bitswap.PeerRequestQueue
import Ipfs.Bitswap.WantListQueue
import Ipfs.Bitswap.Announcement
import Ipfs.Bitswap.Retry
import Ipfs.Bitswap.CidQueue
import Ipfs.Bitswap.Engine
import Ipfs.Bitswap.PeerQueue
import Ipfs.Path.Split
import Ipfs.Path.Clean
import Ipfs.Path.BoundedSplit
import Ipfs.Namesys.Dnslink
import Ipfs.Namesys.DnslinkParsers
import Ipfs.Namesys.Resolver
import Ipfs.Namesys.Proquint
import Ipfs.Namesys.Isdomain
import Ipfs.Core.Connections
import Ipfs.Core.Request
import Ipfs.Core.RequestLine
import Ipfs.Core.ChunkedBounds
import Ipfs.Core.ResponseChunks
import Ipfs.Core.Multipart
import Ipfs.Core.FormattedStrings
import Ipfs.Core.Chunked
import Ipfs.Routing.GetValue
import Ipfs.Pin.HasChild
import Ipfs.Util.JobQueue
import Ipfs.Util.ThreadPoolRest
import Ipfs.Store.ConfigRoundTrip
import Ipfs.Bitswap.Delivery
