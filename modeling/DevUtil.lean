import DevUtil.Lib.Interleave
import DevUtil.Lib.Prog
import DevUtil.Lib.Regex
import DevUtil.Findmissing.Invariants
import DevUtil.Findmissing.Interleaving
import DevUtil.Findmissing.AlreadyMerged
import DevUtil.Findmissing.NewFixes
import DevUtil.Findmissing.SyncPass
import DevUtil.Findmissing.PatchIds
import DevUtil.Findmissing.StableSchedule
import DevUtil.Nebraska.Selection
import DevUtil.Roafteriniter.Parallel
import DevUtil.Roafteriniter.Units
import DevUtil.Roafteriniter.Postprocess
import DevUtil.Variant.Resume
import DevUtil.Variant.AbortAgain
import DevUtil.Variant.DataFlow
import DevUtil.Variant.CqPipeline
import DevUtil.GsCache.TarfileUtils
import DevUtil.GsCache.ArchiveServer
import DevUtil.GsCache.SetupRuns
import DevUtil.Devserver.LocalPath
import DevUtil.Netboot.Settings
import DevUtil.Syzbot.Gitlog
import DevUtil.Cvetriager.ContextGenerator
import DevUtil.Fromupstream.Main
import DevUtil.Usb.ForwardDevices
import DevUtil.Findmissing.SubsequentFixes
import DevUtil.Findmissing.Getopen
import DevUtil.Findmissing.FixesDescriptions
import DevUtil.Findmissing.ChangeIds
import DevUtil.Lib.Deletion
import DevUtil.Devserver.ApacheLogMetrics
import DevUtil.Devserver.Autoupdate
import DevUtil.Devserver.Builder
import DevUtil.Devserver.CherrypyExt
import DevUtil.Devserver.UpdatePings
import DevUtil.Findmissing.CherrypickStatus
import DevUtil.Findmissing.CommitMessages
import DevUtil.GsCache.ArchiveUrl
import DevUtil.GsCache.NginxLogMetrics
import DevUtil.Roafteriniter.CacheMap
import DevUtil.Roafteriniter.Logging
import DevUtil.Variant.Workon
import DevUtil.Findmissing.UpstreamSplit
import DevUtil.Crates.ExcludeLatest
import DevUtil.Cvetriager.RelevantCommits
import DevUtil.Lib.Regions
import DevUtil.Lib.Sections
import DevUtil.Lib.Tree
import DevUtil.Netboot.Image
import DevUtil.Syzbot.AutoTriager
import DevUtil.Syzbot.HtmlDecode
import DevUtil.Syzbot.Mismatches
import DevUtil.Syzbot.PatchFinder
import DevUtil.Syzbot.Triage
import DevUtil.Unibuild.Genconf
import DevUtil.Uprev.GenUprevMsg
import DevUtil.Variant.Kconfig
import DevUtil.Lib.Differences
import DevUtil.Lib.Numbering
import DevUtil.Lib.Traversal
import DevUtil.Lib.WorkList
import DevUtil.MergeKernel.HaveVersion
import DevUtil.MergeKernel.ReleaseCandidates
import DevUtil.Overlays.CutToRoots
import DevUtil.Willis.Manifest
import DevUtil.Willis.ProjectMap
import DevUtil.Cvetriager.ContextRun
import DevUtil.Cvetriager.TriageRun
import DevUtil.Lib.Fairness
import DevUtil.Lib.Resources
import DevUtil.Provision.Device
import DevUtil.Roafteriniter.Plugin
import DevUtil.Willis.Finish
