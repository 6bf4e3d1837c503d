import Folkering.Lib.Spans
import Folkering.Lib.Chain
import Folkering.Lib.Word64
import Folkering.Lib.Steps
import Folkering.Lib.ByteMem
import Folkering.Physical.Model
import Folkering.Physical.System
import Folkering.Physical.Buddy
import Folkering.Physical.Safety
import Folkering.Physical.DoubleFree
import Folkering.Physical.Contiguous
import Folkering.Physical.Counter
import Folkering.Lib.Wire
import Folkering.Jit.Cache
import Folkering.Lib.Ledger
import Folkering.Capability.Model
import Folkering.Capability.Authority
import Folkering.Capability.MapPhysical
import Folkering.Block.Driver
import Folkering.Block.Acknowledge
import Folkering.Block.Queue
import Folkering.Block.FreeList
import Folkering.Block.Creation
import Folkering.Lib.WriteBack
import Folkering.Lib.Inorder
import Folkering.Lib.Leb128
import Folkering.Sqlite.Record
import Folkering.Sqlite.Table
import Folkering.Sqlite.Scan
import Folkering.Lib.Layout
import Folkering.Sqlite.Varint
import Folkering.Sqlite.Columns
import Folkering.Sqlite.Candidates
import Folkering.Synapse.Buffer
import Folkering.Synapse.Btree
import Folkering.Synapse.Flush
import Folkering.Synapse.Encoding
import Folkering.Lib.Worklist
import Folkering.Synapse.Frame
import Folkering.Synapse.BlobRead
import Folkering.Synapse.Overflow
import Folkering.Lib.DepthFirst
import Folkering.Synapse.GraphWalk
import Folkering.Wasm.Leb128
import Folkering.Ipc.Model
import Folkering.Ipc.Replies
import Folkering.Ipc.Delegation
import Folkering.Ipc.Waiting
import Folkering.Ipc.Priority
import Folkering.Ipc.Interleaving
import Folkering.Ipc.Exit
import Folkering.Task.Elf
import Folkering.Task.Scheduler
import Folkering.Task.Ageing
import Folkering.Task.RunQueue
import Folkering.Task.RoundRobin
import Folkering.Net.Firewall
import Folkering.Net.TcpSlots
import Folkering.Net.TcpExit
import Folkering.Net.Transmit
import Folkering.Net.WebSocket
import Folkering.Net.WebSocketStream
import Folkering.Memory.Paging
import Folkering.Memory.Kernel
import Folkering.Memory.Frames
import Folkering.Memory.Pages
import Folkering.Memory.WriteXorExecute
import Folkering.Lib.Circular
import Folkering.Gfx.Ring
import Folkering.Gfx.Rect
import Folkering.Gfx.DisplayList
import Folkering.Gfx.Dispatch
import Folkering.Gfx.Clipping
import Folkering.Gfx.Rings
import Folkering.Memory.Creation
import Folkering.Memory.Access
import Folkering.Memory.Placement
import Folkering.Lib.LittleEndian
import Folkering.Fs.FolkPack
import Folkering.Fbp.StateUpdate
import Folkering.Streamer.Daemon
import Folkering.Lib.Rows
import Folkering.CodeGraph.Format
import Folkering.CodeGraph.Build
import Folkering.Lib.Segments
import Folkering.Compositor.Allocator
import Folkering.Task.Load
import Folkering.Lib.Crc
import Folkering.Mcp.Checksum
import Folkering.Mcp.Cobs
import Folkering.Mcp.Frame
import Folkering.Lib.Merging
import Folkering.Compositor.Damage
import Folkering.Compositor.Shell
import Folkering.Gfx.Occlusion
import Folkering.Gfx.Builder
import Folkering.Compositor.Alignment
import Folkering.Compositor.Widgets
import Folkering.Gfx.RingSteps
import Folkering.Lib.Heapsort
import Folkering.Tensor.KvCache
import Folkering.Tensor.BytePairs
import Folkering.Tensor.PreTokenizer
import Folkering.Tensor.Tokenizer
import Folkering.Net.JsonScan
import Folkering.Net.JsonFields
