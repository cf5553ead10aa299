import Anubis.Raft.CommitIndex
import Anubis.Raft.Proposals
import Anubis.Storage.CrashRecovery
import Anubis.Storage.JudgmentIndex
import Anubis.Auth.SharedState
import Anubis.Auth.Grants
import Anubis.Auth.Owners
import Anubis.Auth.Revocation
import Anubis.Probe.DialGuard
import Anubis.Probe.CheckSlots
import Anubis.Api.ChannelRoundTrip
import Anubis.Api.SecretDestination
import Anubis.Api.SecretsHidden
import Anubis.Api.SoulRoundTrip
import Anubis.Api.ClientAddress
import Anubis.Sla.RangeQueries
import Anubis.Sla.CheckTallies
import Anubis.Sla.TallyExact
import Anubis.Sla.MaintenanceAgreement
import Anubis.Alert.Escalation
import Anubis.Backup.AccountsKept
import Anubis.Heartbeat.AcknowledgedPings
import Anubis.Auth.GuessLimit
import Anubis.Raft.LeaderMessages
import Anubis.Raft.SnapshotAssembly
import Anubis.Storage.SnapshotRestore
import Anubis.Fsm.TableReads
import Anubis.Raft.FrameReplay
import Anubis.Cluster.Batching
import Anubis.Journey.LiveLoops
import Anubis.Storage.LogSizes
import Anubis.Storage.Transparency
