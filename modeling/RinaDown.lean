import RinaDown.AutoSwitch
import RinaDown.BlobConsumption
import RinaDown.CdnReports
import RinaDown.ConfigSync
import RinaDown.ConnPolicies
import RinaDown.ConnectionRamp
import RinaDown.DaemonConnection
import RinaDown.DispatchOnce
import RinaDown.DispositionNames
import RinaDown.Ed2kCallbacks
import RinaDown.Ed2kFrames
import RinaDown.Ed2kHashsets
import RinaDown.Ed2kHonestPeer
import RinaDown.Ed2kNames
import RinaDown.Ed2kSoundness
import RinaDown.FileSyncGate
import RinaDown.FinalSizeCheck
import RinaDown.FinalizationSafety
import RinaDown.FtpAddresses
import RinaDown.FtpCommands
import RinaDown.FtpTruth
import RinaDown.GuardedFetch
import RinaDown.HlsIv
import RinaDown.HlsPipeline
import RinaDown.HlsProduct
import RinaDown.HlsResume
import RinaDown.KadBoundaries
import RinaDown.KadLookup
import RinaDown.LastCommand
import RinaDown.LinkAuthenticity
import RinaDown.LinkReplay
import RinaDown.MarketWatermark
import RinaDown.Multicall
import RinaDown.NodeLeases
import RinaDown.PairingAgreement
import RinaDown.PairingThrottle
import RinaDown.PendingDispatches
import RinaDown.PluginInstallation
import RinaDown.PluginWorkspaces
import RinaDown.PreviewAgreement
import RinaDown.ProgressWrites
import RinaDown.QueueSchedules
import RinaDown.RelayPairing
import RinaDown.RemoteCommands
import RinaDown.RenameAtomicity
import RinaDown.RoutePersistence
import RinaDown.RoutePruning
import RinaDown.RssFairness
import RinaDown.RuntimeStatistics
import RinaDown.SeedStorage
import RinaDown.SeedingDiscipline
import RinaDown.SelectionTermination
import RinaDown.SingleWriter
import RinaDown.SpawnEpoch
import RinaDown.StreamAbsorption
import RinaDown.TaskEventStream
import RinaDown.TaskGids
import RinaDown.TaskPages
import RinaDown.TemplateRendering
import RinaDown.TokenRates
import RinaDown.UploadAccounting
import RinaDown.UrlGlobs
import RinaDown.WebhookAccounting
import RinaDown.WebhookSnapshots
import RinaDown.WorkConservation
import RinaDown.YtdlpArguments
