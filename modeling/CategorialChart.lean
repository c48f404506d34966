import CategorialChart.Category.Basic
import CategorialChart.Category.Grammar
import CategorialChart.Category.Inventory
import CategorialChart.Category.Reading
import CategorialChart.Cell.Basic
import CategorialChart.Cell.Stats
import CategorialChart.Cell.Verdict
import CategorialChart.Chart.Basic
import CategorialChart.Chart.Span
import CategorialChart.Decimal.Shortest
import CategorialChart.Derivation.Basic
import CategorialChart.Derivation.Item
import CategorialChart.Fingerprint.Basic
import CategorialChart.Fingerprint.Hasher
import CategorialChart.Fingerprint.Table
import CategorialChart.Options
import CategorialChart.Policy
import CategorialChart.Proofs.Category.Inventory
import CategorialChart.Proofs.Category.Positions
import CategorialChart.Proofs.Category.Rejection
import CategorialChart.Proofs.Category.RoundTrip
import CategorialChart.Proofs.Cell.Answer
import CategorialChart.Proofs.Cell.Beam
import CategorialChart.Proofs.Cell.Best
import CategorialChart.Proofs.Cell.BestFirst
import CategorialChart.Proofs.Cell.Counters
import CategorialChart.Proofs.Cell.Failure
import CategorialChart.Proofs.Cell.First
import CategorialChart.Proofs.Cell.Hashed
import CategorialChart.Proofs.Cell.Retaken
import CategorialChart.Proofs.Cell.Retention
import CategorialChart.Proofs.Cell.RisingCosts
import CategorialChart.Proofs.Cell.Views
import CategorialChart.Proofs.Chart.Counters
import CategorialChart.Proofs.Chart.Enumeration
import CategorialChart.Proofs.Chart.Lexical
import CategorialChart.Proofs.Chart.Places
import CategorialChart.Proofs.Chart.SeedOutcome
import CategorialChart.Proofs.Chart.Spans
import CategorialChart.Proofs.Derivation.Numbers
import CategorialChart.Proofs.Fingerprint.Coverage
import CategorialChart.Proofs.Fingerprint.Layout
import CategorialChart.Proofs.Fingerprint.Memory
import CategorialChart.Proofs.Fingerprint.Parity
import CategorialChart.Proofs.Score.Bits
import CategorialChart.Proofs.Score.Laws
import CategorialChart.Proofs.Score.Order
import CategorialChart.Proofs.Score.Product
import CategorialChart.Proofs.Score.Rounding
import CategorialChart.Proofs.Session.Cells
import CategorialChart.Proofs.Session.Duplicates
import CategorialChart.Proofs.Session.Extent
import CategorialChart.Proofs.Session.Failures
import CategorialChart.Proofs.Session.Plain
import CategorialChart.Proofs.Session.Reached
import CategorialChart.Proofs.Session.Requests
import CategorialChart.Proofs.Session.Seeding
import CategorialChart.Proofs.Session.Tables
import CategorialChart.Proofs.Session.Twins
import CategorialChart.Proofs.Tagging.Beam
import CategorialChart.Proofs.Tagging.Narrowing
import CategorialChart.Proofs.Tagging.Ranking
import CategorialChart.Random.ChaCha
import CategorialChart.Score.Basic
import CategorialChart.Score.Binary64
import CategorialChart.Session
import CategorialChart.Tagging.Prune
import CategorialChart.Tagging.Tagger
import CategorialChart.Text.Blank
import CategorialChart.Workspace
