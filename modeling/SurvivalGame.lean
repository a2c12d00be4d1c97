import SurvivalGame.Transition
import SurvivalGame.Framing
import SurvivalGame.Channel
import SurvivalGame.Descriptors
import SurvivalGame.LoopThread
import SurvivalGame.Loops
import SurvivalGame.Cursor
import SurvivalGame.Utf8
import SurvivalGame.TailWindow
import SurvivalGame.Pocket
import SurvivalGame.Header
import SurvivalGame.Send
import SurvivalGame.SendLoop
import SurvivalGame.Segmentation
import SurvivalGame.Receive
import SurvivalGame.Fragmentation
import SurvivalGame.Alignment
import SurvivalGame.Payload
import SurvivalGame.Reassembly
import SurvivalGame.Overrun
import SurvivalGame.Delivery
import SurvivalGame.Socket
import SurvivalGame.Disconnect
import SurvivalGame.Reconnect
import SurvivalGame.Threads
import SurvivalGame.TextField
import SurvivalGame.Cuts
import SurvivalGame.Insertion
import SurvivalGame.Window
import SurvivalGame.Bookkeeping
import SurvivalGame.Deletion
import SurvivalGame.Shown
import SurvivalGame.Typing
import SurvivalGame.Allowed
import SurvivalGame.LastCharacter
import SurvivalGame.Capacity
import SurvivalGame.CharSet
import SurvivalGame.Decoding
import SurvivalGame.RoundTrip
import SurvivalGame.CharCount
import SurvivalGame.Base128
import SurvivalGame.CodedOutput
import SurvivalGame.CodedInput
import SurvivalGame.FromArray
import SurvivalGame.Unread
import SurvivalGame.Chunks
import SurvivalGame.TokenLoop
import SurvivalGame.UnknownFields
import SurvivalGame.Skipping
import SurvivalGame.WireGrammar
import SurvivalGame.WireRoundTrip
import SurvivalGame.Utf8Automaton
import SurvivalGame.StructurallyValid
import SurvivalGame.LongestText
import SurvivalGame.GeneratedMessage
import SurvivalGame.Interpretation
import SurvivalGame.LastWins
import SurvivalGame.MessageValues
import SurvivalGame.MessageRoundTrip
import SurvivalGame.Relay
import SurvivalGame.NulFree
import SurvivalGame.TypedLink
import SurvivalGame.Sink
import SurvivalGame.OutputBuffers
import SurvivalGame.BufferedOutput
import SurvivalGame.EventualDelivery
import SurvivalGame.BoundedStream
import SurvivalGame.Expansion
import SurvivalGame.LiteRuntime
