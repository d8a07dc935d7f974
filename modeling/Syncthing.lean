import Syncthing.Sync.CacheLocks
import Syncthing.Sync.OldestVersions
import Syncthing.Sync.Orchestrator
import Syncthing.Sync.PullExclusion
import Syncthing.Sync.Service
import Syncthing.Daemon.NoLostUpdates
import Syncthing.Daemon.LocalScans
import Syncthing.Daemon.EventLoop
import Syncthing.Api.EventDelivery
import Syncthing.Api.ConfigCalls
import Syncthing.Daemon.IndexRecords
import Syncthing.Daemon.BlockSource
import Syncthing.Sync.InferredDeletions
import Syncthing.Sync.DownloadPaths
import Syncthing.Sync.DeletionQuota
import Syncthing.Sync.ConflictBlocks
import Syncthing.Net.RegistryConsistency
import Syncthing.Net.DialAgreement
import Syncthing.Net.Incoming
import Syncthing.Daemon.PeerAuthentication
import Syncthing.Net.DerpPeers
import Syncthing.Net.DeviceIdText
import Syncthing.Sync.VersionOrder
import Syncthing.Sync.IndexVerdicts
import Syncthing.Sync.Announcements
import Syncthing.Sync.HarmfulRecords
import Syncthing.Sync.SequenceLocks
import Syncthing.Net.FrameLimits
import Syncthing.Net.Hello
import Syncthing.Sync.MergedIndexes
import Syncthing.Sync.RenamesFirst
import Syncthing.Sync.IndexManager
import Syncthing.Net.HandshakeGuards
import Syncthing.Sync.Supervisor
import Syncthing.Net.OutboundAddresses
import Syncthing.Net.RelayTables
import Syncthing.Fs.IgnoreCache
import Syncthing.Sync.FolderStats
import Syncthing.Net.Checksum
