import Goish.Compress.Bzip2.Bwt
import Goish.Container.Heap
import Goish.Container.List
import Goish.Crypto.Bigmod.Arithmetic
import Goish.Encoding.Binary.Varint
import Goish.Encoding.Csv.RoundTrip
import Goish.Encoding.Json.RoundTrip
import Goish.GoMap.Keys
import Goish.GoMap.Overflow
import Goish.GoMap.Refinement
import Goish.Math.Big.Arith
import Goish.Math.Big.Sqrt
import Goish.Net.Http.Chunked
import Goish.Net.Netip.Prefix
import Goish.Net.Url.Escape
import Goish.Net.Url.Resolve
import Goish.Regexp.Boundaries
import Goish.Regexp.Priority
import Goish.Regexp.Termination
import Goish.Runtime.Heap.Growth
import Goish.Runtime.Heap.Reachable
import Goish.Runtime.LockFreeRing.Fifo
import Goish.Runtime.Sched.RunQueue
import Goish.Sync.NotifyList
import Goish.Sync.RWMutex
import Goish.Sync.Singleflight
import Goish.Sync.WaitGroup
import Goish.Sync.Waiters
import Goish.Time.Round
import Goish.Time.Ticker
import Goish.Time.Timer
import Goish.Time.Week
import Goish.Unicode.Utf8.FullRune
