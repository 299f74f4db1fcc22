import WorkLedger.Main
import WorkLedger.Proofs.Text.Separator
import WorkLedger.Proofs.Decimal.Written
import WorkLedger.Proofs.Transaction.Payload
import WorkLedger.Proofs.Transaction.Plain
import WorkLedger.Proofs.Block.Header
import WorkLedger.Proofs.Block.Sequence
import WorkLedger.Proofs.Block.History
import WorkLedger.Proofs.Chain.Sound
import WorkLedger.Proofs.Chain.Replacement
import WorkLedger.Proofs.Chain.Position
import WorkLedger.Proofs.Chain.Weight
import WorkLedger.Proofs.Chain.Agreement
import WorkLedger.Proofs.Sync.Reconcile
import WorkLedger.Proofs.Sync.Session
import WorkLedger.Proofs.Sync.Delivery
import WorkLedger.Proofs.Sync.Convergence
import WorkLedger.Proofs.Unspent.Order
import WorkLedger.Proofs.Unspent.Places
import WorkLedger.Proofs.Unspent.Replay
import WorkLedger.Proofs.Amount.Whole
import WorkLedger.Proofs.Amount.Exact
import WorkLedger.Proofs.Unspent.Supply
import WorkLedger.Proofs.Account.Resolved
import WorkLedger.Proofs.Account.Balance
import WorkLedger.Proofs.Fallible
import WorkLedger.Proofs.Amount.Bounded
import WorkLedger.Proofs.Decimal.Leading
import WorkLedger.Proofs.Json.Numerals
import WorkLedger.Proofs.Json.Strings
import WorkLedger.Proofs.Json.Documents
import WorkLedger.Proofs.Json.Records
import WorkLedger.Proofs.Block.Encoding
import WorkLedger.Proofs.Sync.Wire
import WorkLedger.Proofs.Account.Answers
import WorkLedger.Proofs.Payment.Made
import WorkLedger.Proofs.Mining.Found
import WorkLedger.Proofs.Mining.Settlement
import WorkLedger.Proofs.Mining.Workbench
import WorkLedger.Proofs.Mining.Provenance
import WorkLedger.Proofs.Mining.Rounds
import WorkLedger.Proofs.Mining.FirstNonce
import WorkLedger.Proofs.Chain.Stepwise
import WorkLedger.Proofs.Sync.Effect
import WorkLedger.Proofs.Sync.Redelivery
import WorkLedger.Proofs.Sync.Ranges
import WorkLedger.Proofs.Sync.WalkBack
import WorkLedger.Proofs.Amount.Order
import WorkLedger.Proofs.Payment.Verdict
import WorkLedger.Proofs.Decimal.Padded
import WorkLedger.Proofs.Store.Files
import WorkLedger.Proofs.Store.Mirror
import WorkLedger.Proofs.Store.Restart
import WorkLedger.Proofs.Chain.ExactWeight
import WorkLedger.Proofs.Chain.Retarget
import WorkLedger.Proofs.Mining.Growth
import WorkLedger.Proofs.Bytes.HexText
import WorkLedger.Proofs.Difficulty
import WorkLedger.Proofs.Transaction.IdText
import WorkLedger.Proofs.Account.Details
import WorkLedger.Proofs.Account.Find
import WorkLedger.Proofs.Mining.Located
