import Elementwise.Main
import Elementwise.InnerLoop
import Elementwise.Json.Parser
import Elementwise.Json.Printer
import Elementwise.Kernel.Combination
import Elementwise.Report.Encoding
import Elementwise.Scalar.Encoding
import Elementwise.Settings.Encoding
import Elementwise.Proofs.Job.ExactlyOnce
import Elementwise.Proofs.Job.Ending
import Elementwise.Proofs.Memory.Store
import Elementwise.Proofs.Operand.Separation
import Elementwise.Proofs.Job.Effect
import Elementwise.Proofs.Launch.Team
import Elementwise.Proofs.Launch.Turns
import Elementwise.Proofs.Executor.Schedule
import Elementwise.Proofs.Executor.Sequential
import Elementwise.Proofs.Executor.Unwinding
import Elementwise.Proofs.Executor.Completion
import Elementwise.Proofs.Executor.Threads
import Elementwise.Proofs.Job.Retirement
import Elementwise.Proofs.Sync.Serial
import Elementwise.Proofs.Family.Request
import Elementwise.Proofs.Launch.Untouched
import Elementwise.Proofs.Job.Effort
import Elementwise.Proofs.Launch.Progress
import Elementwise.Proofs.Executor.Refusal
import Elementwise.Proofs.Sync.Contest
import Elementwise.Proofs.Job.Gathering
import Elementwise.Proofs.Job.Operations
import Elementwise.Proofs.Job.Poison
import Elementwise.Proofs.Executor.Poisoned
import Elementwise.Proofs.Job.Exclusion
import Elementwise.Proofs.Job.Deadlock
import Elementwise.Proofs.Job.Atomicity
import Elementwise.Proofs.Job.Attribution
import Elementwise.Proofs.Range.Tiling
import Elementwise.Proofs.Sync.History
import Elementwise.Proofs.Executor.Accounts
import Elementwise.Proofs.InnerLoop.Answer
import Elementwise.Proofs.Family.Validation
import Elementwise.Proofs.Family.Call
import Elementwise.Proofs.Operand.Addressing
import Elementwise.Proofs.Executor.Contract
import Elementwise.Proofs.Job.Clearing
import Elementwise.Proofs.Family.Order
import Elementwise.Proofs.Settings.Environment
import Elementwise.Proofs.Json.RoundTrip
