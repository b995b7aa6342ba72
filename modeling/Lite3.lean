import Lite3.Store.Creation
import Lite3.Store.Stale
import Lite3.Layout.Codec
import Lite3.Loaded.Lookup
import Lite3.Loaded.Inside
import Lite3.Store.Portable
import Lite3.Store.Appending
import Lite3.Store.Reload
import Lite3.Store.Reading
import Lite3.Store.Climb
import Lite3.Store.Wrap
import Lite3.Json.RoundTrip
import Lite3.Json.Orders
import Lite3.Json.Strings
import Lite3.Ring.Members
import Lite3.Ring.Fnv
import Lite3.Layout.Path
import Lite3.Json.Getters
import Lite3.Json.Integers
import Lite3.Json.Offsets
import Lite3.Json.HexCodec
import Lite3.Log.Session
import Lite3.Json.Contains
import Lite3.Json.Blocked
import Lite3.Json.Canonical
import Lite3.Layout.Capacity
import Lite3.Paths.Basic
import Lite3.Store.Agreement
import Lite3.Json.Documents
import Lite3.Json.Parsed
import Lite3.Layout.Positions
import Lite3.Json.Iterated
import Lite3.Ring.History
import Lite3.Store.Space
