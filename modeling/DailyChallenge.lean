import DailyChallenge.Lsm.ScanOrder
import DailyChallenge.Lsm.ForeignFiles
import DailyChallenge.Treiber.Destructor
import DailyChallenge.Dns.WriteBounds
import DailyChallenge.ArenaAllocator.Blocks
import DailyChallenge.ArenaAllocator.Exhaustion
import DailyChallenge.Coroutines.RoundRobin
import DailyChallenge.Coroutines.Phases
import DailyChallenge.Bloom.Membership
import DailyChallenge.ElfInspector.Listing
import DailyChallenge.Bloom.Mixing
import DailyChallenge.Dns.SkipName
import DailyChallenge.LengthExtension.ExtendedMessage
import DailyChallenge.ElfInspector.SymbolTable
import DailyChallenge.HeapRingBuffer.Allocation
import DailyChallenge.Jit.Runs
import DailyChallenge.LengthExtension.Hmac
import DailyChallenge.EpollReactor.EchoServer
import DailyChallenge.Lsm.Provenance
import DailyChallenge.AesGcm.ForcedIssues
import DailyChallenge.Dns.Exchange
import DailyChallenge.Treiber.Termination
