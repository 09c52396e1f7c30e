import Mincodec.Bits
import Mincodec.Stream.Parser
import Mincodec.Stream.Poll
import Mincodec.Stream.Source
import Mincodec.Bitbuf
import Mincodec.Codec
import Mincodec.Primitive
import Mincodec.Option
import Mincodec.Result
import Mincodec.Array
import Mincodec.Allocated
import Mincodec.Fields
import Mincodec.Theorems.Allocated
import Mincodec.Theorems.Fields
import Mincodec.Tuple
import Mincodec.Derive
import Mincodec.Theorems.Derive
import Mincodec.Immediate
import Mincodec.Format
import Mincodec.Slice
import Mincodec.Theorems.RoundTrip
import Mincodec.Theorems.Incremental
import Mincodec.Stream.Skip
import Mincodec.Theorems.Items
import Mincodec.Stream.Calm
import Mincodec.Theorems.Panics
import Mincodec.BitSlice
import Mincodec.AsyncReader
import Mincodec.Run.Reader
import Mincodec.Theorems.ReaderInv
import Mincodec.Theorems.AsyncReader
import Mincodec.Stream.Loop
import Mincodec.AsyncWriter
import Mincodec.Run.Writer
import Mincodec.Await
import Mincodec.Theorems.WriterInv
import Mincodec.Theorems.AsyncWriter
import Mincodec.Run.Transfer
import Mincodec.Theorems.Transfer
import Mincodec.Theorems.Canonical
import Mincodec.Size
import Mincodec.Theorems.Size
import Mincodec.Theorems.Capacity
import Mincodec.Theorems.Casted
import Mincodec.Theorems.Determinant
import Mincodec.Theorems.Counter
import Mincodec.Theorems.Truncated
import Mincodec.Theorems.Refill
import Mincodec.Theorems.Carry
import Mincodec.Theorems.Failed
import Mincodec.Stream.Ends
import Mincodec.Meaning
import Mincodec.Depth
import Mincodec.System
import Mincodec.Theorems.Recursive
import Mincodec.Theorems.Attribution
import Mincodec.Stream.Finished
import Mincodec.Theorems.Finished
import Mincodec.Stream.Blind
import Mincodec.Theorems.Blind
import Mincodec.Theorems.Exhausted
import Mincodec.Run.Reuse
import Mincodec.Theorems.Reuse
import Mincodec.Stream.Fifo
import Mincodec.Run.Link
import Mincodec.Theorems.Link
import Mincodec.Stream.Traced
import Mincodec.Theorems.Traced
import Mincodec.Theorems.Delivery
import Mincodec.Theorems.Frameless
import Mincodec.Stream.Settles
import Mincodec.Theorems.Settles
import Mincodec.Theorems.Spin
import Mincodec.Stream.Complete
import Mincodec.Theorems.Dense
import Mincodec.Theorems.Relay
import Mincodec.Theorems.Exposed
import Mincodec.Theorems.Evolution
import Mincodec.Stream.Silent
import Mincodec.Theorems.Silent
import Mincodec.Theorems.Pending
import Mincodec.Theorems.Raised
