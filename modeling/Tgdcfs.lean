import Tgdcfs.Backends.BrokerRuns
import Tgdcfs.Backends.CachedDownloadRuns
import Tgdcfs.Backends.DiscordEdits
import Tgdcfs.Backends.DiscordUploadRuns
import Tgdcfs.Backends.OverflowTexts
import Tgdcfs.Backends.TelegramUploadParts
import Tgdcfs.Backends.TelethonDownload
import Tgdcfs.Cache.Claims
import Tgdcfs.Cache.Stage
import Tgdcfs.Core.CachedReadProgress
import Tgdcfs.Core.FailoverOutput
import Tgdcfs.Core.FileStatsCurrent
import Tgdcfs.Core.InstantComparisons
import Tgdcfs.Core.MkdirParents
import Tgdcfs.Core.MultiSourceOutput
import Tgdcfs.Core.OpsRuns
import Tgdcfs.Core.PinnedMetadata
import Tgdcfs.Core.PrefetchingChainRuns
import Tgdcfs.Core.RangeTiles
import Tgdcfs.Core.StoresApart
import Tgdcfs.Core.VersionRoundTrip
import Tgdcfs.Crypto.OneShot
import Tgdcfs.Github.Agreement
import Tgdcfs.Github.TimestampRuns
import Tgdcfs.Replication.CleanBackfill
import Tgdcfs.Replication.Renames
import Tgdcfs.Replication.RunOnce
import Tgdcfs.Replication.Worker
import Tgdcfs.Sftp.ReadHandle
import Tgdcfs.Upload.TeeCollect
import Tgdcfs.Upload.TeeProgress
import Tgdcfs.Webdav.ClientWrites
import Tgdcfs.Webdav.RangeRequests
import Tgdcfs.Webdav.TransferFailures
import Tgdcfs.Github.LoadedPaths
