import FormRules.Condition.Basic
import FormRules.Condition.Dependence
import FormRules.Condition.Description
import FormRules.Condition.Eval
import FormRules.Context
import FormRules.Derivation.Basic
import FormRules.Derivation.Engine
import FormRules.Derivation.Graph
import FormRules.Expr.Cache
import FormRules.Expr.Eval
import FormRules.Expr.Method
import FormRules.Expr.Node
import FormRules.Expr.Parser
import FormRules.Expr.Reference
import FormRules.Expr.Token
import FormRules.Fault
import FormRules.Form.Attach
import FormRules.Form.Basic
import FormRules.Form.Commit
import FormRules.Form.Compiled
import FormRules.Form.Inquire
import FormRules.Form.Operation
import FormRules.Form.Rulebook
import FormRules.Form.Run
import FormRules.Form.Stream
import FormRules.Form.Validate
import FormRules.Form.Watch
import FormRules.Functions
import FormRules.Functions.Script
import FormRules.Inquiry.Answer
import FormRules.Inquiry.Slot
import FormRules.Notice
import FormRules.Number.Basic
import FormRules.Number.Binary64
import FormRules.Number.Decimal
import FormRules.Number.Numeral
import FormRules.Pattern.Basic
import FormRules.Pattern.Reader
import FormRules.Proofs.Derivation.Frame
import FormRules.Proofs.Form.Calls
import FormRules.Proofs.Form.Compiled
import FormRules.Proofs.Form.Live
import FormRules.Proofs.Form.Move
import FormRules.Proofs.Form.Moves
import FormRules.Proofs.Form.ReadBack
import FormRules.Proofs.Form.Timely
import FormRules.Proofs.Form.Turns
import FormRules.Proofs.Inquiry.Slot
import FormRules.Proofs.Inquiry.Answers
import FormRules.Proofs.Inquiry.Key
import FormRules.Proofs.Inquiry.Memory
import FormRules.Proofs.Inquiry.Thread
import FormRules.Proofs.Inquiry.Tracking
import FormRules.Proofs.Store.Table
import FormRules.Proofs.Store.Order
import FormRules.Proofs.Time.Schedule
import FormRules.Proofs.Value.Equality
import FormRules.Proofs.Value.Place
import FormRules.Reactive.Bench
import FormRules.Reactive.Network
import FormRules.Reactive.Reading
import FormRules.Request.Basic
import FormRules.Request.Http
import FormRules.Request.Query
import FormRules.Request.Resolve
import FormRules.Request.Service
import FormRules.Schema.Basic
import FormRules.Schema.Reach
import FormRules.Schema.Expansion
import FormRules.Schema.Logic
import FormRules.Settings
import FormRules.Store.Expiring
import FormRules.Store.Order
import FormRules.Store.Table
import FormRules.Text.Class
import FormRules.Text.Casing
import FormRules.Text.Printable
import FormRules.Time.Pending
import FormRules.Time.Schedule
import FormRules.Validation.Builtin
import FormRules.Validation.Check
import FormRules.Validation.Dependence
import FormRules.Validation.Error
import FormRules.Validation.Lookup
import FormRules.Validation.Snapshot
import FormRules.Validation.Validator
import FormRules.Value.Basic
import FormRules.Value.Canonical
import FormRules.Value.Coercion
import FormRules.Value.Comparison
import FormRules.Value.Conversion
import FormRules.Value.Equality
import FormRules.Value.Json
import FormRules.Value.Merge
import FormRules.Value.Path
import FormRules.Proofs.Condition.OwnField
import FormRules.Proofs.Form.Rejection
import FormRules.Proofs.Number.Decimal
import FormRules.Proofs.Number.Text
import FormRules.Proofs.Number.Canonical
import FormRules.Proofs.Text.Quoted
import FormRules.Proofs.Value.Canonical
import FormRules.Proofs.Expr.Mention
import FormRules.Proofs.Expr.Reference
import FormRules.Proofs.Number.Reading
import FormRules.Proofs.Condition.Exchange
import FormRules.Proofs.Derivation.Complete
import FormRules.Proofs.Reactive.Compute
import FormRules.Proofs.Reactive.Consistency
import FormRules.Proofs.Reactive.Audience
import FormRules.Proofs.Value.Transitivity
import FormRules.Proofs.Reactive.Told
import FormRules.Proofs.Expr.Caught
import FormRules.Proofs.Expr.RoundTrip
import FormRules.Proofs.Schema.Collect
import FormRules.Proofs.Condition.Described
import FormRules.Proofs.Validation.Described
import FormRules.Proofs.Form.Ready
import FormRules.Proofs.Value.PathText
import FormRules.Proofs.Condition.Composite
import FormRules.Proofs.Form.Inward
import FormRules.Proofs.Form.OutOfBand
import FormRules.Proofs.Form.Trigger
import FormRules.Proofs.Validation.Guards
import FormRules.Proofs.Form.Verdict
import FormRules.Proofs.Form.Checks
import FormRules.Proofs.Form.Validated
import FormRules.Proofs.Form.Required
import FormRules.Proofs.Condition.Malformed
import FormRules.Proofs.Condition.Evaluated
import FormRules.Proofs.Form.Passes
import FormRules.Proofs.Form.Affected
import FormRules.Proofs.Derivation.Dependences
import FormRules.Proofs.Derivation.Cycle
import FormRules.Proofs.Derivation.Passes
import FormRules.Proofs.Derivation.Arranged
import FormRules.Proofs.Reactive.Switching
import FormRules.Proofs.Form.Settling
import FormRules.Proofs.Inquiry.Pace
import FormRules.Proofs.Store.Expiring
import FormRules.Proofs.Expr.Recent
import FormRules.Proofs.Value.Writing
import FormRules.Proofs.Request.Query
import FormRules.Proofs.Request.Resolved
import FormRules.Proofs.Validation.Email
import FormRules.Proofs.Validation.Bounds
import FormRules.Proofs.Expr.LooseEquality
import FormRules.Proofs.Value.Merge
import FormRules.Proofs.Expr.Renaming
import FormRules.Proofs.Expr.Identifier
import FormRules.Proofs.Value.Numeric
import FormRules.Proofs.Number.Radix
