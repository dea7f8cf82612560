import TokenEditor.Caret
import TokenEditor.Cell
import TokenEditor.Change
import TokenEditor.Completion.Channel
import TokenEditor.Completion.Context
import TokenEditor.Completion.Item
import TokenEditor.Completion.Tokenizer
import TokenEditor.Config.Disk
import TokenEditor.Config.File
import TokenEditor.Config.Toml.Node
import TokenEditor.Config.Toml.Reader
import TokenEditor.Config.Toml.Scalar
import TokenEditor.Editor.Basic
import TokenEditor.Editor.Commands
import TokenEditor.Editor.Completing
import TokenEditor.Editor.Deleting
import TokenEditor.Editor.Offer
import TokenEditor.Editor.Row
import TokenEditor.Editor.Typing
import TokenEditor.Error
import TokenEditor.Expr.Basic
import TokenEditor.Expr.Event
import TokenEditor.Expr.Grammar
import TokenEditor.Expr.Kind
import TokenEditor.Expr.Language
import TokenEditor.Expr.Lexeme
import TokenEditor.Expr.Lowering
import TokenEditor.Expr.Range
import TokenEditor.Forest
import TokenEditor.Language
import TokenEditor.Pairing
import TokenEditor.Palette
import TokenEditor.Printed
import TokenEditor.Proofs.Acts
import TokenEditor.Proofs.BareRows
import TokenEditor.Proofs.BesideValues
import TokenEditor.Proofs.Calls
import TokenEditor.Proofs.Canonical
import TokenEditor.Proofs.Changes
import TokenEditor.Proofs.CleanTexts
import TokenEditor.Proofs.Commentless
import TokenEditor.Proofs.Comments
import TokenEditor.Proofs.Deletion
import TokenEditor.Proofs.Derivation
import TokenEditor.Proofs.Descent
import TokenEditor.Proofs.Emptying
import TokenEditor.Proofs.Enter
import TokenEditor.Proofs.ErrorRuns
import TokenEditor.Proofs.FlatSums
import TokenEditor.Proofs.GreedyCuts
import TokenEditor.Proofs.Growth
import TokenEditor.Proofs.Guards
import TokenEditor.Proofs.Histories
import TokenEditor.Proofs.Identity
import TokenEditor.Proofs.Insertion
import TokenEditor.Proofs.Inverse
import TokenEditor.Proofs.Keystrokes
import TokenEditor.Proofs.LaterItems
import TokenEditor.Proofs.Mismatch
import TokenEditor.Proofs.NoDrift
import TokenEditor.Proofs.Notices
import TokenEditor.Proofs.Offsets
import TokenEditor.Proofs.Operations
import TokenEditor.Proofs.Pairs
import TokenEditor.Proofs.Payload
import TokenEditor.Proofs.PrintTrees
import TokenEditor.Proofs.Reader
import TokenEditor.Proofs.Reassociation
import TokenEditor.Proofs.Recovery
import TokenEditor.Proofs.Replay
import TokenEditor.Proofs.Reports
import TokenEditor.Proofs.Reprinting
import TokenEditor.Proofs.Restoring
import TokenEditor.Proofs.Retyping
import TokenEditor.Proofs.Rounds
import TokenEditor.Proofs.Runs
import TokenEditor.Proofs.Selections
import TokenEditor.Proofs.Snapshots
import TokenEditor.Proofs.Steady
import TokenEditor.Proofs.Steps
import TokenEditor.Proofs.Structural
import TokenEditor.Proofs.Sums
import TokenEditor.Proofs.Supplies
import TokenEditor.Proofs.Synced
import TokenEditor.Proofs.TextRows
import TokenEditor.Proofs.Typing
import TokenEditor.Proofs.Updates
import TokenEditor.Proofs.Watching
import TokenEditor.Proofs.WellFormed
import TokenEditor.Region
import TokenEditor.Settings
import TokenEditor.Span
import TokenEditor.Sum.Basic
import TokenEditor.Sum.Language
import TokenEditor.Text.Basic
import TokenEditor.Text.Blank
import TokenEditor.Text.Decimal
import TokenEditor.Text.Letter
import TokenEditor.Token
import TokenEditor.View
import TokenEditor.Proofs.SyntaxTree
import TokenEditor.Proofs.Display
import TokenEditor.Proofs.Subscriptions
import TokenEditor.Proofs.Handover
import TokenEditor.Proofs.MaximalMunch
import TokenEditor.Proofs.Delivery
import TokenEditor.Proofs.LinkWalks
import TokenEditor.Proofs.Openings
