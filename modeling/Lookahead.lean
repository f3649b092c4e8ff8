import Lookahead.Value
import Lookahead.Failure
import Lookahead.Notice
import Lookahead.Run
import Lookahead.Timeout
import Lookahead.Text.Pieces
import Lookahead.Text.Dotted
import Lookahead.Text.Blank
import Lookahead.Text.DecimalDigit
import Lookahead.Text.Numeral
import Lookahead.Text.Wildcard
import Lookahead.FieldTree.Basic
import Lookahead.FieldTree.Union
import Lookahead.FieldTree.Absorb
import Lookahead.FieldTree.Branch
import Lookahead.FieldTree.Listing
import Lookahead.FieldTree.Registers
import Lookahead.Exclusion.Scope
import Lookahead.Exclusion.Pattern
import Lookahead.Exclusion.Lookup
import Lookahead.Query.Directive
import Lookahead.Query.Selection
import Lookahead.Query.Walk
import Lookahead.Request.Info
import Lookahead.Request.Options
import Lookahead.Request.View
import Lookahead.Request.Session
import Lookahead.Proofs.FieldTree.Distinct
import Lookahead.Proofs.Exclusion.Descent
import Lookahead.Proofs.Walk.Contribution
import Lookahead.Proofs.Walk.Gather
import Lookahead.Proofs.FieldTree.Prune
import Lookahead.Proofs.Walk.Prune
import Lookahead.Proofs.Walk.Entry
import Lookahead.Proofs.Walk.Presence
import Lookahead.Proofs.Request.Tree
import Lookahead.Proofs.Exclusion.Growth
import Lookahead.Proofs.FieldTree.Listing
import Lookahead.Proofs.Request.Branch
import Lookahead.Proofs.Request.Labels
import Lookahead.Proofs.Request.Growth
import Lookahead.Proofs.Exclusion.Exact
import Lookahead.Proofs.FieldTree.Places
import Lookahead.Proofs.Walk.Exclusion
import Lookahead.Proofs.Walk.Nesting
import Lookahead.Proofs.Request.Answered
import Lookahead.Proofs.Query.Permission
import Lookahead.Proofs.Query.Validity
import Lookahead.Proofs.Walk.Depth
import Lookahead.Proofs.Request.Validated
import Lookahead.Proofs.Walk.Inlining
import Lookahead.Proofs.Request.Concatenation
import Lookahead.Proofs.Walk.Visit
import Lookahead.Proofs.FieldTree.Joined
import Lookahead.Proofs.Walk.Order
import Lookahead.Proofs.FieldTree.Levels
import Lookahead.Proofs.Request.Projection
import Lookahead.Proofs.FieldTree.Rearranged
import Lookahead.Proofs.FieldTree.Reassembly
import Lookahead.Proofs.Request.Lossless
import Lookahead.Proofs.FieldTree.Subtree
import Lookahead.Proofs.Request.BranchProjection
import Lookahead.Proofs.Exclusion.Relative
import Lookahead.Proofs.Query.Variables
import Lookahead.Proofs.Walk.Agreement
import Lookahead.Proofs.FieldTree.Covers
import Lookahead.Proofs.Query.Reordering
import Lookahead.Proofs.Walk.Reordering
import Lookahead.Proofs.Request.Reordering
import Lookahead.Proofs.Walk.Evaluation
import Lookahead.Proofs.Exclusion.Expiry
import Lookahead.Proofs.Exclusion.Attempts
import Lookahead.Proofs.Walk.Events
import Lookahead.Proofs.Walk.Expiry
import Lookahead.Proofs.FieldTree.Semilattice
import Lookahead.Proofs.FieldTree.Registers
import Lookahead.Proofs.FieldTree.Branch
import Lookahead.Proofs.Exclusion.Keys
import Lookahead.Proofs.Exclusion.Shortest
import Lookahead.Proofs.Walk.Narrowing
import Lookahead.Proofs.Text.Gaps
import Lookahead.Proofs.Exclusion.LastStars
import Lookahead.Proofs.Request.PatternOrder
import Lookahead.Proofs.Query.Conditions
import Lookahead.Proofs.Request.Renaming
import Lookahead.Proofs.Request.Names
import Lookahead.Proofs.Request.Options
import Lookahead.Proofs.Request.Failures
import Lookahead.Proofs.Walk.Stops
import Lookahead.Proofs.Walk.Undefined
import Lookahead.Proofs.Request.Warnings
