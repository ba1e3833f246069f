import PulseNull.Text.Lines
import PulseNull.Json.RoundTrip
import PulseNull.Json.Decode
import PulseNull.Json.Size
import PulseNull.Oneself.Event
import PulseNull.Oneself.Chain
import PulseNull.Oneself.Tamper
import PulseNull.Oneself.Reopen
import PulseNull.Oneself.AppendOnly
import PulseNull.Oneself.Refused
import PulseNull.Oneself.Lost
import PulseNull.Oneself.TornRepair
import PulseNull.Coordinator.Recovery
import PulseNull.Coordinator.Fenced
import PulseNull.Server.Trust
import PulseNull.Server.Turns
import PulseNull.Session.Orphans
import PulseNull.Tension.Discharge
import PulseNull.Tension.Threads
import PulseNull.Tension.Accrual
import PulseNull.Effects
import PulseNull.Probe.Budget
import PulseNull.Probe.Offsets
import PulseNull.Probe.OwnerWords
import PulseNull.Probe.ModelName
import PulseNull.Scheduler.IntentSound
import PulseNull.Scheduler.Alerts
import PulseNull.Outreach.Caps
import PulseNull.Machine
import PulseNull.EventLedger.NoGap
import PulseNull.Probe.Loss
import PulseNull.GraphExtract.CatchUp
import PulseNull.Coordinator.FarmSound
import PulseNull.Comms.Daemon
import PulseNull.Comms.Pause
import PulseNull.Receipts.Overlaps
import PulseNull.Session.WalBytes
import PulseNull.Context.Compact
import PulseNull.Scheduler.Markers
import PulseNull.Scheduler.Exclusive
import PulseNull.Scheduler.AlertQueue
import PulseNull.Oneself.AnchorRuns
import PulseNull.Session.Endings
import PulseNull.Speech.Gate
import PulseNull.Scheduler.Strip
import PulseNull.Probe.Append
import PulseNull.Oneself.MonthLogs
import PulseNull.Praxis.Archive
import PulseNull.Cli.Down
import PulseNull.Server.Guests
import PulseNull.Persist.Snapshots
import PulseNull.Plugins.DiscordForwarder
import PulseNull.ClaudeHooks.Merge
import PulseNull.Praxis.Thoughts
import PulseNull.Session.Checkpoints
import PulseNull.Oneself.Canonical
import PulseNull.Scheduler.Cron
import PulseNull.Session.Index
import PulseNull.Prediction.Notices
import PulseNull.Prediction.Void
import PulseNull.Context.Passes
import PulseNull.Server.TurnStream
import PulseNull.Tui.Streams
import PulseNull.ToolLoop.Heard
import PulseNull.ToolLoop.Hold
import PulseNull.ToolLoop.Rounds
import PulseNull.ToolLoop.Transcript
import PulseNull.ToolLoop.Turn
import PulseNull.ToolLoop.Voice
import PulseNull.ToolLoop.Rollback
import PulseNull.ToolLoop.Settled
