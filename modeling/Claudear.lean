import Claudear.Engine.Declined
import Claudear.Engine.RetryRace
import Claudear.Storage.Migrator
import Claudear.Storage.ReviewComments
import Claudear.Storage.PrRecords
import Claudear.Core.Identity
import Claudear.Sql.Tx
import Claudear.Storage.Accounts
import Claudear.Storage.HandleClaims
import Claudear.Storage.LoginEmail
import Claudear.Storage.Invites
import Claudear.Core.Security
import Claudear.Engine.Dedup
import Claudear.Engine.Delivery
import Claudear.Engine.Fencing
import Claudear.Engine.Registration
import Claudear.Engine.Resending
import Claudear.Engine.Rewards
import Claudear.Storage.VectorAgreement
import Claudear.Analysis.Prioritisation
import Claudear.Analysis.Regression
import Claudear.Analysis.Issue
import Claudear.Config.PersonKeys
import Claudear.Engine.DeepCascades
import Claudear.Engine.MergesOnce
import Claudear.Engine.AutoClose
import Claudear.Engine.SettledRuns
import Claudear.Engine.RetryCharges
import Claudear.Engine.Merged
import Claudear.Engine.RateLimit
import Claudear.DeployQa.OneInFlight
import Claudear.DeployQa.Verdicts
import Claudear.Config.Redaction
import Claudear.Engine.DrainedIdle
import Claudear.Engine.CascadeTargets
import Claudear.Engine.SeenIssues
import Claudear.Engine.WebhookAgrees
import Claudear.Engine.RetryTiming
import Claudear.Distribution.RosterLookups
import Claudear.Distribution.Ranking
import Claudear.Distribution.FairShare
import Claudear.Distribution.Notice
import Claudear.Distribution.CodeOwnersMatch
import Claudear.Distribution.Distributed
import Claudear.Engine.Redelivery
import Claudear.Analysis.Incremental
import Claudear.Engine.FinishedWork
import Claudear.Storage.AnswerLookup
import Claudear.Storage.IssueClusters
import Claudear.Storage.Experiments
import Claudear.Storage.Dependants
import Claudear.Storage.RepoFiles
import Claudear.Storage.CodeCleanup
import Claudear.Storage.Purge
import Claudear.Engine.PublicReasonStable
import Claudear.Release.Containment
import Claudear.Api.Limiter
import Claudear.Core.KnownSecrets
import Claudear.Analysis.DependencyQueries
import Claudear.Release.LockChecks
import Claudear.Release.FailingWatch
import Claudear.Release.ImageRuns
import Claudear.Api.Visibility
import Claudear.Chunking.SearchContext
import Claudear.Chunking.Searchable
import Claudear.Analysis.ArrivalClusters
import Claudear.Engine.ResetTimes
import Claudear.Reports.Scheduler
import Claudear.DeployQa.NewestTip
import Claudear.Knowledgebase.Reindexing
import Claudear.Templates.Verbatim
import Claudear.Storage.LinksApart
import Claudear.Engine.ReviewRuns
