import Libtask.Base.Runs
import Libtask.Base.DList
import Libtask.Events
import Libtask.State
import Libtask.Tasklist
import Libtask.Task
import Libtask.Lock
import Libtask.Channel
import Libtask.Fd
import Libtask.Machine
import Libtask.Fdio
import Libtask.Abstract.Objects
import Libtask.Properties.Channels
import Libtask.Properties.AltCommit
import Libtask.Properties.Fdwrite
import Libtask.Properties.Nonblocking
import Libtask.Properties.Lifetime
import Libtask.Properties.Poller
import Libtask.Properties.QLocks
import Libtask.Properties.Rendez
import Libtask.Properties.RWLocks
import Libtask.Properties.Stall
import Libtask.Properties.Storage
import Libtask.Properties.ByValue
import Libtask.Properties.Determinacy
import Libtask.Print
import Libtask.Properties.Printing
import Libtask.Properties.Numbers
import Libtask.Net
import Libtask.Properties.Addresses
import Libtask.Context
import Libtask.Properties.Switching
import Libtask.Properties.FirstEntry
import Libtask.Properties.RunQueue
import Libtask.Properties.Elements
import Libtask.Properties.Ends
import Libtask.Base.Sieve
import Libtask.Refine.Chanop
import Libtask.Primes
import Libtask.Refine.Primes
import Libtask.Properties.Primes
import Libtask.Properties.LockOrder
import Libtask.Coroutines
import Libtask.Properties.Coroutines
import Libtask.Base.Ownership
import Libtask.Refine.Lasting
import Libtask.Refine.Relaying
import Libtask.Properties.Sockets
import Libtask.Properties.Tcpproxy
