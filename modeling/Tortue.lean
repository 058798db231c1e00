import Tortue.Domain.Primitive
import Tortue.Domain.Decimal
import Tortue.Domain.Bencode
import Tortue.Domain.Spelling
import Tortue.Collections.History
import Tortue.Domain.Bitfield
import Tortue.Collections.HashMap
import Tortue.Domain.Peer
import Tortue.Domain.Message
import Tortue.Domain.Torrent
import Tortue.Domain.Swarm.BlockAssignment
import Tortue.Domain.Swarm.PeerRegistry
import Tortue.Domain.Swarm.PieceManager
import Tortue.Domain.Swarm.Swarm
import Tortue.Domain.Swarm.Frame
import Tortue.Domain.Swarm.Identity
import Tortue.Properties.Identity
import Tortue.Domain.Swarm.Outputs
import Tortue.Properties.Duplicates
import Tortue.Properties.SimultaneousOpen
import Tortue.Domain.Swarm.Planning
import Tortue.Domain.Swarm.Accounts
import Tortue.Properties.NewSession
import Tortue.Domain.Swarm.Ledger
import Tortue.Properties.Ledger
import Tortue.Collections.Blocks
import Tortue.Domain.Swarm.Pieces
import Tortue.Domain.Swarm.PieceHistory
import Tortue.Domain.Swarm.Completion
import Tortue.Properties.Completion
import Tortue.Collections.Allotment
import Tortue.Domain.Swarm.Geometry
import Tortue.Properties.Geometry
import Tortue.Domain.Swarm.Passes
import Tortue.Properties.WorkConservation
import Tortue.Collections.Segments
import Tortue.Adapters.DiskStorage
import Tortue.Domain.Wire
import Tortue.Adapters.PeerIo
import Tortue.Domain.Tracker
import Tortue.Adapters.SwarmIo
import Tortue.Adapters.Effects
import Tortue.Domain.Swarm.Uploads
import Tortue.Domain.Swarm.LocalPieces
import Tortue.Domain.Swarm.Progress
import Tortue.Adapters.Restore
import Tortue.Adapters.Custody
import Tortue.Adapters.CustodySteps
import Tortue.Adapters.Secured
import Tortue.Properties.Integrity
import Tortue.Adapters.Links
import Tortue.Adapters.Sessions
import Tortue.Domain.Swarm.Adverts
import Tortue.Domain.Decoding
import Tortue.Domain.Canonical
import Tortue.Domain.Parsing
import Tortue.Properties.Coherence
import Tortue.Properties.InfoSlice
import Tortue.Domain.Metadata
import Tortue.Domain.UtMetadata
import Tortue.Collections.Slots
import Tortue.Domain.MetadataFetch
import Tortue.Properties.ExtensionIds
import Tortue.Properties.FetchRecovery
import Tortue.Collections.BitGroups
import Tortue.Domain.Magnet
import Tortue.Adapters.MetadataIo
import Tortue.Application.Magnet
import Tortue.Properties.MagnetContract
import Tortue.Adapters.Exchange
import Tortue.Adapters.Replies
import Tortue.Adapters.Delivery
import Tortue.Properties.MetadataExchange
import Tortue.Properties.FlatStorage
import Tortue.Domain.Swarm.Reads
import Tortue.Domain.Swarm.Announcements
import Tortue.Properties.Advertised
import Tortue.Properties.Isolation
import Tortue.Adapters.Turns
import Tortue.Adapters.Greetings
import Tortue.Properties.PeerChannels
import Tortue.Properties.GreetingFirst
import Tortue.Domain.Swarm.UploadQueue
import Tortue.Properties.UploadQueue
import Tortue.Properties.UploadDelivery
import Tortue.Properties.Announcements
import Tortue.Properties.FastChoke
import Tortue.Adapters.Courses
import Tortue.Adapters.ReadTasks
import Tortue.Domain.Swarm.Counters
import Tortue.Properties.CompletionSignals
import Tortue.Properties.StorageRanges
import Tortue.Properties.ReadBalance
import Tortue.Properties.OpenReads
import Tortue.Adapters.Barrier
import Tortue.Adapters.Published
import Tortue.Properties.StorageBarrier
import Tortue.Properties.Replanning
import Tortue.Domain.Swarm.Extensions
import Tortue.Properties.DisabledExtensions
import Tortue.Adapters.TrackerIo
import Tortue.Properties.TrackerEvents
import Tortue.Domain.UtPex
import Tortue.Properties.ExtensionMessages
import Tortue.Domain.RoundTrip
import Tortue.Adapters.Framing
import Tortue.Properties.WireFraming
import Tortue.Properties.UploadAccounting
import Tortue.Properties.Restoration
import Tortue.Collections.StableSort
import Tortue.Properties.Fairness
import Tortue.Properties.RequestWidths
import Tortue.Properties.StrictDecoding
import Tortue.Properties.SizeArithmetic
import Tortue.Properties.MetadataServing
import Tortue.Properties.MetadataRequests
import Tortue.Collections.Gathering
import Tortue.Properties.BlockOrder
import Tortue.Properties.RequestAcceptance
import Tortue.Unix.Path
import Tortue.Unix.FileSystem
import Tortue.Adapters.CreateFiles
import Tortue.Adapters.UnixFiles
import Tortue.Properties.Confinement
import Tortue.Properties.Aliasing
import Tortue.Domain.BitfieldIter
import Tortue.Properties.BitfieldViews
import Tortue.Properties.BitfieldExchange
import Tortue.Properties.IndexBounds
import Tortue.Properties.MagnetHashes
import Tortue.Domain.Swarm.CheckedPieces
import Tortue.Properties.Representation
import Tortue.Domain.Termination
import Tortue.Properties.BencodeDecoding
import Tortue.Adapters.Faults
import Tortue.Application.Client
import Tortue.Properties.ClientReports
import Tortue.Adapters.Passages
import Tortue.Adapters.OnDisk
import Tortue.Adapters.Restart
import Tortue.Properties.Resume
import Tortue.Collections.Layout
import Tortue.Domain.Handshake
import Tortue.Adapters.PeerListener
import Tortue.Properties.SessionAgreement
import Tortue.Collections.Walk
import Tortue.Domain.Swarm.Saturation
import Tortue.Domain.Swarm.Wanted
import Tortue.Adapters.Transfer
import Tortue.Adapters.TransferBlocks
import Tortue.Adapters.TransferCosts
import Tortue.Collections.Enumeration
import Tortue.Adapters.TransferSwarms
import Tortue.Adapters.TransferPex
import Tortue.Adapters.TransferLinks
import Tortue.Adapters.TransferSeeders
import Tortue.Adapters.TransferLeecher
import Tortue.Adapters.TransferSteps
import Tortue.Adapters.TransferRuns
import Tortue.Properties.Transfer
import Tortue.Collections.Refinement
import Tortue.Adapters.PeerTask
import Tortue.Adapters.Peering
import Tortue.Adapters.PeerTurns
import Tortue.Adapters.PeerViews
import Tortue.Adapters.PeeringRuns
import Tortue.Adapters.PeerLives
import Tortue.Adapters.Conversations
import Tortue.Adapters.Redials
import Tortue.Adapters.Cancellations
import Tortue.Properties.PeerTasks
import Tortue.Collections.BigEndian
import Tortue.Adapters.UdpTransport
import Tortue.Adapters.Datagrams
import Tortue.Adapters.UdpExchange
import Tortue.Adapters.UdpAnswers
import Tortue.Collections.Percent
import Tortue.Domain.Utf8
import Tortue.Domain.MagnetLink
import Tortue.Properties.MagnetLinks
import Tortue.Properties.TrackerExchange
import Tortue.Properties.TrackerDatagrams
