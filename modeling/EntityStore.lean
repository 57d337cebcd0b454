import EntityStore.Binary64.Basic
import EntityStore.Binary64.Shortest
import EntityStore.Binary64.Text
import EntityStore.Cache
import EntityStore.Changeset
import EntityStore.Collection.Basic
import EntityStore.Collection.InSession
import EntityStore.Collection.OverTable
import EntityStore.Collection.Relationship
import EntityStore.Collection.View
import EntityStore.Directory
import EntityStore.Entity.Basic
import EntityStore.Entity.Snapshot
import EntityStore.EntityId
import EntityStore.Filter.Basic
import EntityStore.Filter.Check
import EntityStore.Filter.Json
import EntityStore.Filter.Matching
import EntityStore.Filter.Operator
import EntityStore.Json.Access
import EntityStore.Json.Basic
import EntityStore.Json.Printer
import EntityStore.Json.Reader
import EntityStore.Json.Typed
import EntityStore.Ledger
import EntityStore.Names
import EntityStore.Order.Basic
import EntityStore.Order.Comparing
import EntityStore.Proofs.Binary64.Bits
import EntityStore.Proofs.Binary64.Decimals
import EntityStore.Proofs.Binary64.Range
import EntityStore.Proofs.Binary64.Rounding
import EntityStore.Proofs.Binary64.Text
import EntityStore.Proofs.Cache.Admission
import EntityStore.Proofs.Cache.Assigning
import EntityStore.Proofs.Cache.Changes
import EntityStore.Proofs.Cache.Drawing
import EntityStore.Proofs.Cache.Edits
import EntityStore.Proofs.Cache.FirstHolder
import EntityStore.Proofs.Cache.Identity
import EntityStore.Proofs.Cache.Index
import EntityStore.Proofs.Cache.Keys
import EntityStore.Proofs.Cache.Numbering
import EntityStore.Proofs.Cache.Shelves
import EntityStore.Proofs.Collection.KeyLookups
import EntityStore.Proofs.Collection.PlainTable
import EntityStore.Proofs.Collection.Refusals
import EntityStore.Proofs.Collection.Relationships
import EntityStore.Proofs.Entity.Agreeing
import EntityStore.Proofs.Entity.Alike
import EntityStore.Proofs.Entity.Plain
import EntityStore.Proofs.Entity.Pool
import EntityStore.Proofs.Filter.Answers
import EntityStore.Proofs.Filter.Building
import EntityStore.Proofs.Filter.Criteria
import EntityStore.Proofs.Filter.Documents
import EntityStore.Proofs.Filter.Origins
import EntityStore.Proofs.Filter.Passing
import EntityStore.Proofs.Json.Finite
import EntityStore.Proofs.Json.Numerals
import EntityStore.Proofs.Json.Spelling
import EntityStore.Proofs.Json.Strings
import EntityStore.Proofs.Json.Trailing
import EntityStore.Proofs.Json.Typed
import EntityStore.Proofs.Ledger.Calls
import EntityStore.Proofs.Ledger.Edited
import EntityStore.Proofs.Ledger.Histories
import EntityStore.Proofs.Order.Consistency
import EntityStore.Proofs.QueryText.Answers
import EntityStore.Proofs.QueryText.Branches
import EntityStore.Proofs.QueryText.Clauses
import EntityStore.Proofs.QueryText.Commas
import EntityStore.Proofs.QueryText.Counting
import EntityStore.Proofs.QueryText.Formed
import EntityStore.Proofs.QueryText.Fragments
import EntityStore.Proofs.QueryText.Identity
import EntityStore.Proofs.QueryText.Infinite
import EntityStore.Proofs.QueryText.Layout
import EntityStore.Proofs.QueryText.Lexing
import EntityStore.Proofs.QueryText.Literals
import EntityStore.Proofs.QueryText.Loosening
import EntityStore.Proofs.QueryText.Normal
import EntityStore.Proofs.QueryText.Orderly
import EntityStore.Proofs.QueryText.Orders
import EntityStore.Proofs.QueryText.Outlines
import EntityStore.Proofs.QueryText.Parsed
import EntityStore.Proofs.QueryText.Paths
import EntityStore.Proofs.QueryText.Positions
import EntityStore.Proofs.QueryText.Reading
import EntityStore.Proofs.QueryText.Readings
import EntityStore.Proofs.QueryText.Rearranging
import EntityStore.Proofs.QueryText.Regular
import EntityStore.Proofs.QueryText.Rereading
import EntityStore.Proofs.QueryText.Shrinking
import EntityStore.Proofs.QueryText.Spoiled
import EntityStore.Proofs.QueryText.Stable
import EntityStore.Proofs.QueryText.Values
import EntityStore.Proofs.Repository.Acceptance
import EntityStore.Proofs.Repository.Changing
import EntityStore.Proofs.Repository.Committing
import EntityStore.Proofs.Repository.Contents
import EntityStore.Proofs.Repository.Faltering
import EntityStore.Proofs.Repository.Finishing
import EntityStore.Proofs.Repository.Lines
import EntityStore.Proofs.Repository.Loading
import EntityStore.Proofs.Repository.Lookups
import EntityStore.Proofs.Repository.Owning
import EntityStore.Proofs.Repository.Persisting
import EntityStore.Proofs.Repository.Requests
import EntityStore.Proofs.Repository.Runs
import EntityStore.Proofs.Repository.Sequences
import EntityStore.Proofs.Repository.Staging
import EntityStore.Proofs.Repository.Standing
import EntityStore.Proofs.Repository.Steps
import EntityStore.Proofs.Repository.Tables
import EntityStore.Proofs.Repository.TagRows
import EntityStore.Proofs.Repository.Twins
import EntityStore.Proofs.Repository.Upkeep
import EntityStore.Proofs.Repository.Writing
import EntityStore.Proofs.Schema.Inspecting
import EntityStore.Proofs.Schema.Walk
import EntityStore.Proofs.Select.Agreement
import EntityStore.Proofs.Select.Dataset
import EntityStore.Proofs.Select.Failures
import EntityStore.Proofs.Select.Filters
import EntityStore.Proofs.Select.Joins
import EntityStore.Proofs.Select.Leaf
import EntityStore.Proofs.Select.Orders
import EntityStore.Proofs.Select.Parting
import EntityStore.Proofs.Select.Pattern
import EntityStore.Proofs.Select.Routes
import EntityStore.Proofs.Select.Scopes
import EntityStore.Proofs.Select.Slots
import EntityStore.Proofs.Select.Truth
import EntityStore.Proofs.Session.Abiding
import EntityStore.Proofs.Session.Attaching
import EntityStore.Proofs.Session.CheckingOut
import EntityStore.Proofs.Session.Coherence
import EntityStore.Proofs.Session.Conduct
import EntityStore.Proofs.Session.Custody
import EntityStore.Proofs.Session.Delta
import EntityStore.Proofs.Session.Drawing
import EntityStore.Proofs.Session.Effects
import EntityStore.Proofs.Session.Entering
import EntityStore.Proofs.Session.Finding
import EntityStore.Proofs.Session.Identifying
import EntityStore.Proofs.Session.Isolation
import EntityStore.Proofs.Session.Ledgers
import EntityStore.Proofs.Session.Paging
import EntityStore.Proofs.Session.Quiet
import EntityStore.Proofs.Session.Refusal
import EntityStore.Proofs.Session.Refusing
import EntityStore.Proofs.Session.Relations
import EntityStore.Proofs.Session.Reopening
import EntityStore.Proofs.Session.Rows
import EntityStore.Proofs.Session.Runs
import EntityStore.Proofs.Session.Scanning
import EntityStore.Proofs.Session.Steps
import EntityStore.Proofs.Session.Sustaining
import EntityStore.Proofs.Session.Tracking
import EntityStore.Proofs.Session.Worlds
import EntityStore.Proofs.Text.Integer
import EntityStore.Proofs.Timestamp.Calendar
import EntityStore.Proofs.Timestamp.Relaxed
import EntityStore.Proofs.Timestamp.Text
import EntityStore.QueryError
import EntityStore.QueryText.Expression
import EntityStore.QueryText.Meaning
import EntityStore.QueryText.Token
import EntityStore.QueryText.Writer
import EntityStore.Repository
import EntityStore.RowFormat
import EntityStore.Samples.Stores
import EntityStore.Samples.TagRows
import EntityStore.Samples.Types
import EntityStore.Schema.Basic
import EntityStore.Schema.Path
import EntityStore.Select.Basic
import EntityStore.Select.Meaning
import EntityStore.Select.OfSpec
import EntityStore.Select.Pattern
import EntityStore.Select.Text
import EntityStore.Session
import EntityStore.SessionPool
import EntityStore.Settings
import EntityStore.Sorting
import EntityStore.StoreError
import EntityStore.Text.Blank
import EntityStore.Text.Integer
import EntityStore.Text.Pieces
import EntityStore.Timestamp.Basic
import EntityStore.Timestamp.Calendar
import EntityStore.Timestamp.Printer
import EntityStore.Timestamp.Reader
import EntityStore.Value.Basic
import EntityStore.Value.Json
import EntityStore.Value.Printer
import EntityStore.Window
import EntityStore.Workspace
