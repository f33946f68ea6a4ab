import ClassicX.Lib.Code
import ClassicX.Lib.Fields
import ClassicX.Lib.Formats
import ClassicX.Lib.Runs
import ClassicX.Lib.Slots
import ClassicX.Lib.Turns
import ClassicX.Mccp.Basic
import ClassicX.Mccp.Grammar
import ClassicX.Mccp.Packet
import ClassicX.Mccp.Reader
import ClassicX.Mccp.Types
import ClassicX.Mccp.Writer
import ClassicX.Server.Board
import ClassicX.Server.Bridge
import ClassicX.Server.Client
import ClassicX.Server.Device
import ClassicX.Server.File
import ClassicX.Server.Link
import ClassicX.Server.Msp430
import ClassicX.Server.Platform
import ClassicX.Server.Send
import ClassicX.Server.Start
import ClassicX.Spec.Packets
import ClassicX.Spec.Server
import ClassicX.Theorems.Agreement
import ClassicX.Theorems.Board
import ClassicX.Theorems.BoardHeard
import ClassicX.Theorems.BoardServes
import ClassicX.Theorems.Bounds
import ClassicX.Theorems.Call
import ClassicX.Theorems.Causality
import ClassicX.Theorems.Chunks
import ClassicX.Theorems.Codec
import ClassicX.Theorems.Conforms
import ClassicX.Theorems.Conversations
import ClassicX.Theorems.Device
import ClassicX.Theorems.Differences
import ClassicX.Theorems.Dispatch
import ClassicX.Theorems.Driving
import ClassicX.Theorems.Echoes
import ClassicX.Theorems.Ends
import ClassicX.Theorems.Fragments
import ClassicX.Theorems.Frame
import ClassicX.Theorems.Framing
import ClassicX.Theorems.Gating
import ClassicX.Theorems.Greetings
import ClassicX.Theorems.Handlers
import ClassicX.Theorems.Heard
import ClassicX.Theorems.Interrupts
import ClassicX.Theorems.Join
import ClassicX.Theorems.Link
import ClassicX.Theorems.Loads
import ClassicX.Theorems.Mappings
import ClassicX.Theorems.Memory
import ClassicX.Theorems.Mirror
import ClassicX.Theorems.Misfit
import ClassicX.Theorems.Names
import ClassicX.Theorems.Orders
import ClassicX.Theorems.Parsing
import ClassicX.Theorems.Pings
import ClassicX.Theorems.Platforms
import ClassicX.Theorems.Progress
import ClassicX.Theorems.Quiet
import ClassicX.Theorems.Reading
import ClassicX.Theorems.Receive
import ClassicX.Theorems.Rejects
import ClassicX.Theorems.Rejoins
import ClassicX.Theorems.Relay
import ClassicX.Theorems.Replies
import ClassicX.Theorems.Requests
import ClassicX.Theorems.Resets
import ClassicX.Theorems.Said
import ClassicX.Theorems.Sayings
import ClassicX.Theorems.Schedules
import ClassicX.Theorems.Senders
import ClassicX.Theorems.Sending
import ClassicX.Theorems.Serving
import ClassicX.Theorems.Sessions
import ClassicX.Theorems.Speech
import ClassicX.Theorems.Streams
import ClassicX.Theorems.Transmit
import ClassicX.Theorems.Trim
import ClassicX.Theorems.Wakeups
import ClassicX.Theorems.Welcome
import ClassicX.Theorems.Words
import ClassicX.Theorems.Writer
import ClassicX.Theorems.WriterTurns
