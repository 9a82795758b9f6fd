import Lprofile.Lib.Ledger
import Lprofile.Lib.Machine
import Lprofile.Lib.Ring
import Lprofile.Lib.Stdio
import Lprofile.Probe.Os
import Lprofile.Probe.Pmu
import Lprofile.Probe.Evsel
import Lprofile.Probe.Opening
import Lprofile.Probe.EvselRun
import Lprofile.Probe.Evlist
import Lprofile.Probe.EventString
import Lprofile.Probe.EvlistRun
import Lprofile.Probe.Profile
import Lprofile.Probe.Slots
import Lprofile.Probe.Concurrent
import Lprofile.Probe.Records
import Lprofile.Probe.Table
import Lprofile.Probe.Threads
import Lprofile.Probe.Creation
import Lprofile.Probe.Reuse
import Lprofile.Probe.Exit
import Lprofile.Lib.Firsts
import Lprofile.Utils.FuncMap
import Lprofile.Utils.Cache
import Lprofile.Utils.Load
import Lprofile.Utils.Patterns
import Lprofile.Utils.Loads
import Lprofile.Utils.Modules
import Lprofile.Utils.ElfTargets
import Lprofile.Utils.Wrapper
import Lprofile.Utils.Redirect
import Lprofile.Utils.Origins
import Lprofile.Utils.Coherence
import Lprofile.Utils.Count
import Lprofile.Utils.TidOffset
import Lprofile.Utils.Instrumented
import Lprofile.Utils.Report
import Lprofile.Probe.Pipeline
import Lprofile.Probe.Sampling
import Lprofile.Probe.ExitRace
import Lprofile.Probe.Delivery
import Lprofile.Probe.Ownership
import Lprofile.Probe.Fields
import Lprofile.Probe.Lifecycle
import Lprofile.Probe.Nesting
import Lprofile.Utils.CountReport
import Lprofile.Probe.EventOptions
import Lprofile.Probe.ReadSelf
import Lprofile.Probe.StartList
import Lprofile.Probe.Rescan
import Lprofile.Probe.InitOutcome
import Lprofile.Probe.ReadFd
import Lprofile.Probe.EvlistHeap
import Lprofile.Probe.EvlistShape
import Lprofile.Utils.Session
import Lprofile.Utils.Tracer
import Lprofile.Utils.ReportText
import Lprofile.Utils.NamedReport
import Lprofile.Utils.Libraries
import Lprofile.Utils.Hooks
import Lprofile.Probe.ListOps
import Lprofile.Probe.EvlistMany
import Lprofile.Utils.CommandLine
import Lprofile.Utils.CacheDir
import Lprofile.Utils.FuncMapCommand
import Lprofile.Utils.Killed
import Lprofile.Probe.Openers
import Lprofile.Utils.Columns
