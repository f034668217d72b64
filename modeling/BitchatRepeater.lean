import BitchatRepeater.Lib.BigEndian
import BitchatRepeater.Lib.OrdMap
import BitchatRepeater.Lib.MapIterator
import BitchatRepeater.Lib.Multimap
import BitchatRepeater.Lib.Trace
import BitchatRepeater.Lib.PartialRun
import BitchatRepeater.Lib.Ring
import BitchatRepeater.Lib.Items
import BitchatRepeater.Lib.Pointer
import BitchatRepeater.Lib.Rounds
import BitchatRepeater.Wire
import BitchatRepeater.Packets
import BitchatRepeater.Connection
import BitchatRepeater.Tracker
import BitchatRepeater.ProtocolWriter
import BitchatRepeater.ProtocolProcessor
import BitchatRepeater.Sending
import BitchatRepeater.Events
import BitchatRepeater.Memory
import BitchatRepeater.ProcessorLaws
import BitchatRepeater.SendingLaws
import BitchatRepeater.EventLaws
import BitchatRepeater.Clocks
import BitchatRepeater.RawQueues
import BitchatRepeater.Broadcast
import BitchatRepeater.HexPeer
import BitchatRepeater.MessageCodec
import BitchatRepeater.EncryptedContent
import BitchatRepeater.PacketCodec
import BitchatRepeater.Relay
import BitchatRepeater.AtMostOnce
import BitchatRepeater.Network
import BitchatRepeater.Dedup
import BitchatRepeater.Dangling
import BitchatRepeater.ConnectionLaws
import BitchatRepeater.ConnectionKeys
import BitchatRepeater.LiveConnections
import BitchatRepeater.Announcing
import BitchatRepeater.RepeatedReports
import BitchatRepeater.ReusedHandles
import BitchatRepeater.DataFlags
import BitchatRepeater.ArrivalOrder
import BitchatRepeater.PeerHandles
import BitchatRepeater.PeerTable
import BitchatRepeater.MainLoop
import BitchatRepeater.RssiSweep
import BitchatRepeater.StoredPackets
import BitchatRepeater.MessageRoundTrip
import BitchatRepeater.MessageGrammar
import BitchatRepeater.RelaySize
import BitchatRepeater.SenderPeers
import BitchatRepeater.CircularBuffer
import BitchatRepeater.CircularBufferLaws
import BitchatRepeater.LogPieces
import BitchatRepeater.LogDrain
import BitchatRepeater.LinePrefix
import BitchatRepeater.RejectedInput
import BitchatRepeater.TruncatedPackets
import BitchatRepeater.ParserAccesses
import BitchatRepeater.FailedInflate
import BitchatRepeater.FullFlag
import BitchatRepeater.LineScans
import BitchatRepeater.ReaderPositions
import BitchatRepeater.Program
import BitchatRepeater.ConnectionAttempts
import BitchatRepeater.LoopPasses
import BitchatRepeater.TrackerRuns
import BitchatRepeater.Sleeping
import BitchatRepeater.SweepCoverage
import BitchatRepeater.Advertising
import BitchatRepeater.RawQueueOrder
import BitchatRepeater.RelayOrder
import BitchatRepeater.FirstCopies
import BitchatRepeater.Hops
import BitchatRepeater.FloodReach
import BitchatRepeater.OwnAnnounce
import BitchatRepeater.PacketIdentity
import BitchatRepeater.DuplicateLinks
import BitchatRepeater.Discovery
import BitchatRepeater.LifeChecks
import BitchatRepeater.NetworkTime
import BitchatRepeater.SendRequests
import BitchatRepeater.LoopClock
import BitchatRepeater.PacketContents
