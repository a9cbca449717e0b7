import HaAddons.Lib.System
import HaAddons.Lib.Tokens
import HaAddons.Lib.Pool
import HaAddons.Lib.Lock
import HaAddons.Lib.Dict
import HaAddons.Lib.Script
import HaAddons.Lib.Service
import HaAddons.Lib.Json
import HaAddons.Lib.Sha256
import HaAddons.Lib.PercentEncoding
import HaAddons.Lib.JsonText
import HaAddons.Lib.Dialogue
import HaAddons.Lib.Like
import HaAddons.Lib.Document
import HaAddons.Lib.Yaml
import HaAddons.Lib.StableSort
import HaAddons.Runner.Contract
import HaAddons.Runner.Store
import HaAddons.Runner.Job
import HaAddons.Runner.Queue
import HaAddons.Runner.QueueSafety
import HaAddons.Runner.Provenance
import HaAddons.Runner.PlanArtifact
import HaAddons.Runner.PriorPlan
import HaAddons.Runner.Freshness
import HaAddons.Runner.Lifecycle
import HaAddons.Runner.Quiescence
import HaAddons.Runner.Redact
import HaAddons.Runner.Output
import HaAddons.Runner.Pagination
import HaAddons.Runner.RedactedWindow
import HaAddons.Runner.PemInterleaving
import HaAddons.Bridge.Nonce
import HaAddons.Bridge.SlugMutex
import HaAddons.Bridge.SupervisorClient
import HaAddons.Bridge.Handlers
import HaAddons.Bridge.CriticalAddons
import HaAddons.Bridge.ReadBack
import HaAddons.SecretsSync.Files
import HaAddons.SecretsSync.Writer
import HaAddons.SecretsSync.Ownership
import HaAddons.SecretsSync.Unmanaged
import HaAddons.SecretsSync.Merge
import HaAddons.SecretsSync.Supervisor
import HaAddons.SecretsSync.FailedCycles
import HaAddons.SecretsSync.ShrinkGuard
import HaAddons.SecretsSync.SyncLoop
import HaAddons.SecretsSync.ForcedSync
import HaAddons.Auth.TokenStore
import HaAddons.Auth.RotateFailure
import HaAddons.Auth.RotateRace
import HaAddons.Auth.GracePromise
import HaAddons.Ntfy.Contract
import HaAddons.Ntfy.Origins
import HaAddons.Ntfy.AuthDb
import HaAddons.Ntfy.Rights
import HaAddons.Ntfy.Cli
import HaAddons.Ntfy.Accounts
import HaAddons.Ntfy.RoleChange
import HaAddons.Ntfy.AdminRemains
import HaAddons.Ntfy.Render
import HaAddons.Ntfy.Exporter
import HaAddons.Ntfy.ExportOrder
import HaAddons.Ntfy.Baseline
import HaAddons.Ntfy.BaselineOwnership
import HaAddons.Provider.Client
import HaAddons.Provider.Addon
import HaAddons.Provider.World
import HaAddons.Provider.Convergence
import HaAddons.Provider.Deletion
import HaAddons.Provider.Settling
import HaAddons.Provider.Membership
import HaAddons.Provider.EndToEnd
import HaAddons.AdminUi.Http
import HaAddons.AdminUi.Router
import HaAddons.AdminUi.Server
import HaAddons.AdminUi.Gate
import HaAddons.AdminUi.Wire
import HaAddons.AdminUi.KeepAlive
import HaAddons.SecretsSync.Freshness
import HaAddons.Ntfy.RejectedRequests
import HaAddons.Ntfy.Argv
import HaAddons.Ntfy.Backups
import HaAddons.Ntfy.OriginFile
import HaAddons.Runner.Capture
import HaAddons.Runner.RunDir
import HaAddons.Lib.JsonFaults
import HaAddons.Bridge.StatusText
import HaAddons.Runner.Retention
import HaAddons.Lib.Failures
import HaAddons.SecretsSync.KeyReports
import HaAddons.SecretsSync.NextMap
import HaAddons.SecretsSync.Flatten
import HaAddons.SecretsSync.Bitwarden
import HaAddons.Lib.YamlFlat
import HaAddons.SecretsSync.RoundTrip
import HaAddons.Lib.PyJson
import HaAddons.SecretsSync.Config
import HaAddons.Runner.SecondPass
import HaAddons.Ntfy.Reset
import HaAddons.Ntfy.BaselineTwice
import HaAddons.NetworkTools.Arping
import HaAddons.NetworkTools.Mdns
import HaAddons.NetworkTools.Stability
import HaAddons.Lib.Lines
import HaAddons.HaosMonitor.Incidents
import HaAddons.HaosMonitor.Status
import HaAddons.HaosMonitor.Dstate
import HaAddons.AdminUi.Reply
import HaAddons.AdminUi.Responses
import HaAddons.Lib.UriComponent
import HaAddons.AdminUi.ClientUrls
import HaAddons.Lib.Matching
import HaAddons.Cups.UuidFixup
import HaAddons.Lib.Rely
import HaAddons.Cups.UploadWorker
import HaAddons.Cups.Outbox
import HaAddons.Cups.Deliveries
import HaAddons.SecretsSync.PriorityUnion
import HaAddons.SecretsSync.Redact
import HaAddons.Lib.SemVer
import HaAddons.Provider.Handshake
import HaAddons.Lib.RateLimit
import HaAddons.AdminUi.HaBridge
import HaAddons.Lib.YamlAscii
import HaAddons.Ntfy.ServerYml
import HaAddons.Lib.PyText
import HaAddons.CodingAssistants.HaWs
import HaAddons.Lib.Rewriting
import HaAddons.Internal.UpdateVersion
import HaAddons.SecretsSync.Usage
import HaAddons.SecretsSync.UsageLines
import HaAddons.Lib.Overlay
import HaAddons.AdminUi.ThemeValues
import HaAddons.AdminUi.ThemeSync
import HaAddons.Lib.NginxConf
import HaAddons.Lib.NginxLocations
import HaAddons.MarkdownRenderer.Directories
import HaAddons.MarkdownRenderer.NginxConf
import HaAddons.MarkdownRenderer.NginxReads
import HaAddons.MarkdownRenderer.Routes
