import PgRest.Acceptor.Exclusion
import PgRest.Acceptor.Mutex
import PgRest.Acceptor.Ownership
import PgRest.Bytes
import PgRest.Conf.Bounds
import PgRest.Conf.Cells
import PgRest.Conf.Command
import PgRest.Conf.Declares
import PgRest.Conf.Objects
import PgRest.Conf.Order
import PgRest.Conf.Outline
import PgRest.Conf.Parse
import PgRest.Conf.Range
import PgRest.Conf.Routes
import PgRest.Conf.Typed
import PgRest.Conf.Upstream
import PgRest.Conf.UpstreamInit
import PgRest.Conn.Events
import PgRest.Conn.Partition
import PgRest.Conn.Pool
import PgRest.Decimal
import PgRest.Http.Body
import PgRest.Http.Builds
import PgRest.Http.Chunked
import PgRest.Http.ChunkedBody
import PgRest.Http.ContentLength
import PgRest.Http.Cuts
import PgRest.Http.Dialogue
import PgRest.Http.Encoding
import PgRest.Http.Extend
import PgRest.Http.Finalize
import PgRest.Http.HeadCuts
import PgRest.Http.HeadHandler
import PgRest.Http.HeadText
import PgRest.Http.HeaderToken
import PgRest.Http.Keepalive
import PgRest.Http.Limit
import PgRest.Http.Listeners
import PgRest.Http.Phr
import PgRest.Http.Ports
import PgRest.Http.Release
import PgRest.Http.Serve
import PgRest.Http.Session
import PgRest.Http.Slices
import PgRest.Http.Unparsed
import PgRest.Http.Version
import PgRest.Inet.Addr
import PgRest.Inet.Pass
import PgRest.Inet.Port
import PgRest.Inet.Quad
import PgRest.Inet.Read6
import PgRest.Inet.Text6
import PgRest.Inet.Url
import PgRest.Ipc.Notify
import PgRest.Jansson.Accepts
import PgRest.Jansson.Buckets
import PgRest.Jansson.Dump
import PgRest.Jansson.Grammar
import PgRest.Jansson.Hashtable
import PgRest.Jansson.Lexer
import PgRest.Jansson.Load
import PgRest.Jansson.Objects
import PgRest.Jansson.RoundTrip
import PgRest.Jansson.Utf
import PgRest.Jansson.WellFormed
import PgRest.Lib.Chain
import PgRest.Lib.Circle
import PgRest.Lib.Footprint
import PgRest.Lib.Framing
import PgRest.Lib.Group
import PgRest.Lib.Machine
import PgRest.Lib.Move
import PgRest.Lib.Parse
import PgRest.Lib.Ring
import PgRest.Lib.Run
import PgRest.Lib.Scan
import PgRest.Lib.Sort
import PgRest.Lib.Table
import PgRest.Memory.Array
import PgRest.Memory.Buffer
import PgRest.Memory.CQueue
import PgRest.Memory.Chain
import PgRest.Memory.Reserve
import PgRest.Memory.Sent
import PgRest.Rtree.Add
import PgRest.Rtree.Bounds
import PgRest.Rtree.Checked
import PgRest.Rtree.Coexist
import PgRest.Rtree.Find
import PgRest.Rtree.Insert
import PgRest.Rtree.Invariant
import PgRest.Rtree.Node
import PgRest.Rtree.Order
import PgRest.Rtree.Pattern
import PgRest.Rtree.Walker
import PgRest.Rtree.Weights
import PgRest.Slab.Alloc
import PgRest.Slab.Bits
import PgRest.Slab.Blocks
import PgRest.Slab.Chunks
import PgRest.Slab.Free
import PgRest.Slab.FreeList
import PgRest.Slab.Fresh
import PgRest.Slab.Layout
import PgRest.Slab.Links
import PgRest.Slab.Pages
import PgRest.Slab.Pool
import PgRest.Slab.Refusal
import PgRest.Slab.Region
import PgRest.Slab.Release
import PgRest.Slab.Segments
import PgRest.Slab.System
import PgRest.Slab.Widths
