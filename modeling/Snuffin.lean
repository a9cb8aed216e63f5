import Snuffin.Lib.Machine
import Snuffin.Lib.Framing
import Snuffin.Lib.CString
import Snuffin.GameRules
import Snuffin.Session
import Snuffin.Accept
import Snuffin.Login
import Snuffin.Streams
import Snuffin.DbCalls
import Snuffin.Marshalling
import Snuffin.Unmarshalling
import Snuffin.Decoding
import Snuffin.Independence
import Snuffin.RoundBoard
import Snuffin.GameStart
import Snuffin.Departures
import Snuffin.Results
import Snuffin.Lobby
import Snuffin.Announcements
import Snuffin.LeaveNotices
import Snuffin.OwnEntry
import Snuffin.Replica
import Snuffin.Outcome
import Snuffin.Requests
import Snuffin.Wire
import Snuffin.Directions
import Snuffin.Names
import Snuffin.Wakeups
import Snuffin.Highscores
import Snuffin.Lib.Literals
import Snuffin.ComFIFO
import Snuffin.Statements
import Snuffin.RoundTrips
import Snuffin.Boards
import Snuffin.Receiving
import Snuffin.SharedPage
import Snuffin.SuperServer
import Snuffin.Watchers
import Snuffin.Listening
import Snuffin.LoadInt
import Snuffin.Loading
import Snuffin.Presses
import Snuffin.Typing
import Snuffin.Lib.PriorityQueue
import Snuffin.Lib.Trails
import Snuffin.Logging
import Snuffin.Trails
import Snuffin.Dispatch
import Snuffin.Playing
import Snuffin.Accounts
import Snuffin.Progress
import Snuffin.Dialogue
import Snuffin.Seen
import Snuffin.Steering
import Snuffin.Registry
import Snuffin.Deliveries
import Snuffin.Directory
import Snuffin.Handling
import Snuffin.Notices
