import Starter.Lib.Approx
import Starter.Lib.Runs
import Starter.Deliveries
import Starter.Termination
import Starter.Attempts
import Starter.Messages
import Starter.Crossing
import Starter.Grid
import Starter.Handshake
import Starter.Setters
import Starter.Methods
import Starter.Starts
import Starter.Snapshots
import Starter.Grammar
import Starter.Lib.Precedence
import Starter.Syntax
import Starter.Actions
import Starter.Parsing
import Starter.Operators
import Starter.Lexer
import Starter.Spacing
import Starter.Accesses
import Starter.Calls
import Starter.Manual
import Starter.Rewriting
import Starter.Documented
import Starter.Mdns
import Starter.Peering
import Starter.Statistics
import Starter.Repairs
import Starter.Debugger
import Starter.Twins
import Starter.Observing
import Starter.Isolation
import Starter.Nesting
import Starter.Pauses
import Starter.Parallel
import Starter.Histories
import Starter.Signals
import Starter.Requests
import Starter.ReadBack
import Starter.Sequence
import Starter.Aliases
import Starter.Failures
import Starter.Equality
import Starter.Shortcut
import Starter.Lib.Decimals
import Starter.Printing
import Starter.Handles
import Starter.Replies
import Starter.Lib.Selection
import Starter.Finite
import Starter.Extremes
import Starter.Lib.Scanning
import Starter.Binding
import Starter.ProcStat
import Starter.Lib.Search
import Starter.Replacing
import Starter.Lib.Literals
import Starter.Statements
import Starter.StoredValues
import Starter.Rates
import Starter.Spelling
import Starter.RoundTrip
import Starter.Lib.Counting
import Starter.Pointers
import Starter.Layout
import Starter.Building
import Starter.Loading
import Starter.Machine
import Starter.Applying
import Starter.Ownership
