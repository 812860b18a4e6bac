import Bourse.Attempt
import Bourse.Binary64.Basic
import Bourse.Binary64.Shortest
import Bourse.Book.Basic
import Bourse.Book.Ladder
import Bourse.Book.Level
import Bourse.Book.Snapshot
import Bourse.Config.Engine
import Bourse.Config.Error
import Bourse.Config.Instrument
import Bourse.Decimal.Arithmetic
import Bourse.Decimal.Basic
import Bourse.Decimal.Rounding
import Bourse.Decimal.Text
import Bourse.Delivery.Channel
import Bourse.Delivery.Traffic
import Bourse.Delivery.Mailbox
import Bourse.Delivery.Venue
import Bourse.Delivery.Sink
import Bourse.Delivery.StartError
import Bourse.Engine.Basic
import Bourse.Engine.Build
import Bourse.Engine.Desk
import Bourse.Event
import Bourse.Json.Basic
import Bourse.Json.Number
import Bourse.Json.Reader
import Bourse.Json.Writer
import Bourse.Matching
import Bourse.Named
import Bourse.Notice
import Bourse.Order.Basic
import Bourse.Order.Status
import Bourse.Order.Terms
import Bourse.Outcome
import Bourse.Power
import Bourse.Rejection
import Bourse.Table
import Bourse.Text.Blank
import Bourse.Timestamp
import Bourse.Uuid
import Bourse.Violation
import Bourse.Wire.Basic
import Bourse.Wire.Config
import Bourse.Wire.Order
import Bourse.Wire.Outcome
import Bourse.Wire.Received
import Bourse.Proofs.Numerals
import Bourse.Proofs.Decimal.Rounding
import Bourse.Proofs.Decimal.Sums
import Bourse.Proofs.Decimal.Halving
import Bourse.Proofs.Decimal.Quotient
import Bourse.Proofs.Decimal.Products
import Bourse.Proofs.Attempt
import Bourse.Proofs.Order
import Bourse.Proofs.Order.Life
import Bourse.Proofs.Book.Level
import Bourse.Proofs.Book.Ladder
import Bourse.Proofs.Book.Basic
import Bourse.Proofs.Book.Changes
import Bourse.Proofs.Book.Operations
import Bourse.Proofs.Matching
import Bourse.Proofs.Engine.Reports
import Bourse.Proofs.Engine.Desk
import Bourse.Proofs.Engine.Operations
import Bourse.Proofs.Engine.Basic
import Bourse.Proofs.Engine.Checks
import Bourse.Proofs.Engine.Calls
import Bourse.Proofs.Book.Solvent
import Bourse.Proofs.Matching.Solvent
import Bourse.Proofs.Engine.Solvent
import Bourse.Proofs.Book.Balance
import Bourse.Proofs.Book.Apart
import Bourse.Proofs.Matching.Balance
import Bourse.Proofs.Engine.Steady
import Bourse.Proofs.Run.Basic
import Bourse.Proofs.Run.Uncrossed
import Bourse.Proofs.Engine.Lively
import Bourse.Proofs.Run.Priority
import Bourse.Proofs.Engine.Parted
import Bourse.Proofs.Engine.Stopped
import Bourse.Proofs.Engine.Released
import Bourse.Proofs.Engine.Aborted
import Bourse.Proofs.Ledger.Basic
import Bourse.Proofs.Ledger.Keeping
import Bourse.Proofs.Ledger.Turns
import Bourse.Proofs.Ledger.Exact
import Bourse.Proofs.Ledger.Drawn
import Bourse.Proofs.Ledger.Totals
import Bourse.Proofs.Run.Conservation
import Bourse.Proofs.Run.Overfill
import Bourse.Proofs.Engine.Told
import Bourse.Proofs.Engine.Numbered
import Bourse.Proofs.Run.History
import Bourse.Proofs.Run.Log
import Bourse.Proofs.Engine.Listed
import Bourse.Proofs.Run.Stream
import Bourse.Proofs.Engine.Tale
import Bourse.Proofs.Engine.Aging
import Bourse.Proofs.Run.Sequence
import Bourse.Proofs.Run.Lifetime
import Bourse.Proofs.Run.Sinks
import Bourse.Proofs.Engine.Routed
import Bourse.Proofs.Run.Routing
import Bourse.Proofs.Matching.Likeness
import Bourse.Proofs.Engine.Likeness
import Bourse.Proofs.Book.Twins
import Bourse.Proofs.Engine.Suited
import Bourse.Proofs.Engine.Twins
import Bourse.Proofs.Run.Requeue
import Bourse.Proofs.Run.Unfailing
import Bourse.Proofs.Run.Release
import Bourse.Proofs.Config.Listable
import Bourse.Proofs.Run.Building
import Bourse.Proofs.Book.Insertion
import Bourse.Proofs.Run.Declined
import Bourse.Proofs.Table
import Bourse.Proofs.Book.Queue
import Bourse.Proofs.Book.Request
import Bourse.Proofs.Book.Failure
import Bourse.Proofs.Book.Lines
import Bourse.Proofs.Book.Room
import Bourse.Proofs.Book.Refinement
import Bourse.Proofs.Book.Packed
import Bourse.Proofs.Engine.Settlement
import Bourse.Proofs.Run.Settlement
import Bourse.Proofs.Delivery.Traffic
import Bourse.Proofs.Delivery.Venue
import Bourse.Proofs.Matching.Shares
import Bourse.Proofs.Engine.Shares
import Bourse.Proofs.Run.Rules
import Bourse.Proofs.Book.Depth
import Bourse.Proofs.Book.Liquidity
import Bourse.Proofs.Run.Snapshots
import Bourse.Proofs.Engine.Stamps
import Bourse.Proofs.Run.Alike
import Bourse.Proofs.Run.Commuting
import Bourse.Proofs.Matching.Greedy
import Bourse.Proofs.Matching.Liquidity
import Bourse.Proofs.Run.Parted
import Bourse.Proofs.Run.Lessening
import Bourse.Proofs.Engine.FillOrKill
import Bourse.Proofs.Run.FillOrKill
import Bourse.Proofs.Engine.Retimed
import Bourse.Proofs.Run.MarketOrders
import Bourse.Proofs.Outcome
import Bourse.Proofs.Engine.Tallied
import Bourse.Proofs.Run.Averages
import Bourse.Proofs.Json.RoundTrip
import Bourse.Proofs.Decimal.Text
import Bourse.Proofs.Timestamp
import Bourse.Proofs.Uuid
import Bourse.Proofs.Wire.Basic
import Bourse.Proofs.Wire.Records
import Bourse.Proofs.Wire.RoundTrip
