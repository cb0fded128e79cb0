import PerpExchange.Main
import PerpExchange.Settlement.Numbered
import PerpExchange.Timetable
import PerpExchange.Proofs.Index
import PerpExchange.Proofs.Reachable
import PerpExchange.Proofs.Restore
import PerpExchange.Proofs.RunSteps
import PerpExchange.Proofs.FillBudget
import PerpExchange.Proofs.WorkingBooks
import PerpExchange.Proofs.RunBudget
import PerpExchange.Proofs.HeadEffect
import PerpExchange.Proofs.Histories
import PerpExchange.Proofs.LedgerEffect
import PerpExchange.Proofs.Reorg
import PerpExchange.Proofs.Json.Reading
import PerpExchange.Proofs.Json.Lawful
import PerpExchange.Proofs.Json.Records
import PerpExchange.Proofs.Absorption
import PerpExchange.Proofs.Following
import PerpExchange.Proofs.Recovery
import PerpExchange.Proofs.Bootstrap
import PerpExchange.Proofs.SnapshotAhead
import PerpExchange.Proofs.HostileLogs
import PerpExchange.Proofs.RoundTrip
import PerpExchange.Proofs.Survivors
import PerpExchange.Proofs.LoopCompletion
import PerpExchange.Proofs.RunCompletion
import PerpExchange.Proofs.Dealings
import PerpExchange.Proofs.MarginConservation
import PerpExchange.Proofs.SweepFindings
import PerpExchange.Proofs.RunJournal
import PerpExchange.Proofs.LiquidationBudget
import PerpExchange.Proofs.Submissions
import PerpExchange.Proofs.Cancellation
import PerpExchange.Proofs.ReduceOnly
import PerpExchange.Proofs.Departures
import PerpExchange.Proofs.LogReading
import PerpExchange.Proofs.Streams
import PerpExchange.Proofs.TradeThrough
import PerpExchange.Proofs.Maximality
import PerpExchange.Proofs.Alike
import PerpExchange.Proofs.EveryPair
import PerpExchange.Proofs.FarShorts
import PerpExchange.Proofs.ShortBound
import PerpExchange.Proofs.Stages
import PerpExchange.Proofs.Refusals
import PerpExchange.Proofs.FillChange
import PerpExchange.Proofs.Operations
import PerpExchange.Proofs.Takings
import PerpExchange.Proofs.Exhaustion
import PerpExchange.Proofs.Reacceptance
import PerpExchange.Proofs.Eligibility
import PerpExchange.Proofs.Headroom
import PerpExchange.Proofs.FractionBasis
import PerpExchange.Proofs.LedgerOperations
import PerpExchange.Proofs.SweepVerdicts
import PerpExchange.Proofs.CancellationPlan
import PerpExchange.Proofs.SnapshotChecks
import PerpExchange.Proofs.AllOrNothing
import PerpExchange.Proofs.MarginUnwinding
import PerpExchange.Proofs.Retention
import PerpExchange.Proofs.Commitment
import PerpExchange.Proofs.FeedHistory
import PerpExchange.Proofs.HexTexts
import PerpExchange.Proofs.Subscriptions
import PerpExchange.Proofs.Json.Grammar
import PerpExchange.Proofs.Wire
import PerpExchange.Proofs.BookOperations
import PerpExchange.Proofs.Funding
