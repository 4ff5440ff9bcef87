import Bolt.Lru.Cache
import Bolt.Lru.Recency
import Bolt.Server.Constraints
import Bolt.Server.Store
import Bolt.Server.Runs
import Bolt.Server.History
import Bolt.Server.Slots
import Bolt.Server.Batch
import Bolt.Server.Lookup
import Bolt.Server.Concurrent
import Bolt.Server.Interleavings
import Bolt.Server.Updates
import Bolt.Server.Isolation
import Bolt.Server.Outcomes
