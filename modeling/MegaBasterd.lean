import MegaBasterd.Core.Encryption
import MegaBasterd.Core.Crypter
import MegaBasterd.Core.Api
import MegaBasterd.Core.DownloadRuns
import MegaBasterd.Core.UploadRuns
import MegaBasterd.Core.Commits
import MegaBasterd.Accounts.Manager
import MegaBasterd.Queue.Leases
import MegaBasterd.Queue.Secrets
import MegaBasterd.Queue.Heartbeat
import MegaBasterd.Streaming.Server
import MegaBasterd.Utils.Destinations
import MegaBasterd.Core.StateFiles
import MegaBasterd.Core.Cancellation
import MegaBasterd.Config.Updates
import MegaBasterd.Utils.Preservation
import MegaBasterd.Accounts.Instances
import MegaBasterd.Core.Shares
import MegaBasterd.Core.UploadTree
import MegaBasterd.Proxy.Selector
import MegaBasterd.Core.LinkPosts
import MegaBasterd.Utils.Speed
import MegaBasterd.Accounts.Quota
import MegaBasterd.Config.Loading
import MegaBasterd.Core.CrypterRoundTrip
import MegaBasterd.Utils.ClaimSearch
import MegaBasterd.Core.FailedDownloads
import MegaBasterd.Core.StateDecoding
import MegaBasterd.Utils.Filenames
import MegaBasterd.Library.Chains
import MegaBasterd.Core.FolderNodes
import MegaBasterd.Core.FolderPaths
import MegaBasterd.Core.FolderPlans
import MegaBasterd.Core.ChunkPlan
import MegaBasterd.Core.UrlRefresh
import MegaBasterd.Core.PasswordLinks
import MegaBasterd.Core.Exports
import MegaBasterd.Accounts.UploadJobs
import MegaBasterd.Accounts.ShareFailures
import MegaBasterd.Accounts.Lookup
import MegaBasterd.Core.SessionIds
import MegaBasterd.Streaming.Slots
import MegaBasterd.Ui.TransferProgress
import MegaBasterd.Proxy.ConnectAuth
import MegaBasterd.Proxy.ConnectStop
import MegaBasterd.Core.Links
import MegaBasterd.Core.LinkKeys
import MegaBasterd.Core.PartSets
import MegaBasterd.Core.SplitterRoundTrip
import MegaBasterd.Core.Hashcash
import MegaBasterd.Utils.CorruptBackups
import MegaBasterd.Utils.UrlCredentials
import MegaBasterd.Queue.Drain
import MegaBasterd.Utils.LinkFragments
import MegaBasterd.Core.Cloud
import MegaBasterd.Core.SessionStore
import MegaBasterd.Proxy.Health
