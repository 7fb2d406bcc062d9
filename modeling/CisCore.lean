import CisCore.Library.SortedMap
import CisCore.Library.EntryList
import CisCore.Library.SortedSet
import CisCore.Library.Text
import CisCore.Library.KeyValueText
import CisCore.Library.Utf8
import CisCore.Library.FileTree
import CisCore.Library.Transition
import CisCore.Library.Locality
import CisCore.Library.Machine
import CisCore.Library.Interleaving
import CisCore.Library.ReadUntil
import CisCore.Library.Order
import CisCore.ErrorCode
import CisCore.Os
import CisCore.Copy
import CisCore.ProtoUtils
import CisCore.Session.Context
import CisCore.Session.KvFile
import CisCore.Session.Store
import CisCore.Session.Commands
import CisCore.Session.Faults
import CisCore.Session.Writers
import CisCore.Session.Log
import CisCore.Utils
import CisCore.Session.InitContext
import CisCore.Job.Load
import CisCore.Job.Acceptance
import CisCore.Job.Prepare
import CisCore.Job.Execute
import CisCore.Job.Build
import CisCore.Job.Prepared
import CisCore.Job.PrepareFailed
import CisCore.Job.Cleanup
import CisCore.Job.Interrupted
import CisCore.Job.Counts
import CisCore.Job.Output
import CisCore.Startjob
import CisCore.LastJob
import CisCore.Retention
import CisCore.Bounds
import CisCore.Parameters.CommandLine
import CisCore.Parameters.Errors
import CisCore.Parameters.Pipeline
import CisCore.Parameters.Colon
import CisCore.Concurrent.Prepare
import CisCore.Concurrent.Site
import CisCore.Concurrent.Maintenance
import CisCore.Concurrent.Maintenances
import CisCore.Concurrent.Archive
import CisCore.Cron.CronList
import CisCore.Cron.Commands
import CisCore.Cron.Manager
import CisCore.Cron.EventLoop
import CisCore.Cron.Running
import CisCore.Cron.Timer
import CisCore.Cron.Daemon
import CisCore.Cron.Process
import CisCore.Cron.Writers
import CisCore.Concurrent.Parts
import CisCore.Numbers
import CisCore.Job.Finish
import CisCore.Job.BuildMaps
import CisCore.Lineage
import CisCore.ParentStartjob
import CisCore.Parameters.Terminal
import CisCore.Script.Python
import CisCore.Script.Values
import CisCore.Cron.CommandLine
import CisCore.Cron.Service
import CisCore.Script.Tools
import CisCore.Script.Texts
import CisCore.Script.ToolLog
import CisCore.Script.SessionLog
import CisCore.Script.Sessions
import CisCore.Script.CurrentBuild
import CisCore.Script.ExitCode
import CisCore.Script.Jobs
import CisCore.JobRunner
import CisCore.Job.Runner
