import GoIpfs.Runtime
import GoIpfs.Unixfs.Format
import GoIpfs.Merkledag.Node
import GoIpfs.Io.BytesReader
import GoIpfs.Io.DagReader
import GoIpfs.Io.Stream
import GoIpfs.Io.Content
import GoIpfs.Io.ChunkLoop
import GoIpfs.Io.Seek
import GoIpfs.Io.WriteTo
import GoIpfs.Io.AfterError
import GoIpfs.Io.ReadAll
import GoIpfs.Io.Cursor
import GoIpfs.Ipnsfs.Heap
import GoIpfs.Ipnsfs.Dir
import GoIpfs.Ipnsfs.Stable
import GoIpfs.Ipnsfs.Tree
import GoIpfs.Ipnsfs.WalkUp
import GoIpfs.Ipnsfs.Mutations
import GoIpfs.Ipnsfs.Runs
import GoIpfs.Ipnsfs.Fresh
import GoIpfs.Ipnsfs.Representation
import GoIpfs.Ipnsfs.Close
import GoIpfs.Ipnsfs.Failures
