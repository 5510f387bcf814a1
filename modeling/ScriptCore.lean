import ScriptCore.Binary64.Basic
import ScriptCore.Binary64.Hex
import ScriptCore.Binary64.Rounding
import ScriptCore.Binary64.Shortest
import ScriptCore.Collection.Basic
import ScriptCore.Execution.Basic
import ScriptCore.Execution.Thrown
import ScriptCore.Footprint.Context
import ScriptCore.Footprint.Usage
import ScriptCore.Footprint.Walk
import ScriptCore.Heap.Basic
import ScriptCore.Heap.Object
import ScriptCore.Host.Describe
import ScriptCore.Host.Export
import ScriptCore.Host.Value
import ScriptCore.Host.Wrap
import ScriptCore.Json.Number
import ScriptCore.Json.Syntax
import ScriptCore.Numeral.Layout
import ScriptCore.Numeral.Literal
import ScriptCore.Numeral.Reading
import ScriptCore.Numeral.Scan
import ScriptCore.Object.Assign
import ScriptCore.Object.Call
import ScriptCore.Object.Lookup
import ScriptCore.Object.Primitive
import ScriptCore.Pacing.Bucket
import ScriptCore.Pacing.Timers
import ScriptCore.Property.Slot
import ScriptCore.Property.Table
import ScriptCore.Scope.Basic
import ScriptCore.Session.Basic
import ScriptCore.Session.Realm
import ScriptCore.Session.Settings
import ScriptCore.Text.Basic
import ScriptCore.Text.Blank
import ScriptCore.Text.Printable
import ScriptCore.Text.Quoted
import ScriptCore.Text.Utf16
import ScriptCore.Value.Basic
import ScriptCore.Value.Equality
import ScriptCore.Value.Key
import ScriptCore.Proofs.Collection.Invariant
import ScriptCore.Proofs.Collection.Log
import ScriptCore.Proofs.Collection.Refinement
import ScriptCore.Proofs.Footprint.Accounting
import ScriptCore.Proofs.Footprint.Walk
import ScriptCore.Proofs.Footprint.Total
import ScriptCore.Proofs.Binary64.Exact
import ScriptCore.Proofs.Value.LooseEquality
import ScriptCore.Proofs.Text.Forms
import ScriptCore.Proofs.Object.Ordinary
import ScriptCore.Proofs.Object.ProxyChains
import ScriptCore.Proofs.Object.PrimitiveEnds
import ScriptCore.Proofs.Object.Initializers
import ScriptCore.Proofs.Object.Deletion
import ScriptCore.Proofs.Object.Agreement
import ScriptCore.Proofs.Object.Visibility
import ScriptCore.Proofs.Object.Extensibility
import ScriptCore.Proofs.Host.Export
import ScriptCore.Proofs.Session.Ticks
import ScriptCore.Proofs.Session.SharedBucket
import ScriptCore.Proofs.Value.Keys
import ScriptCore.Proofs.Object.Membership
import ScriptCore.Proofs.Host.Identity
import ScriptCore.Proofs.Host.Description
import ScriptCore.Proofs.Host.ExportEnds
import ScriptCore.Proofs.Session.Cancellation
import ScriptCore.Proofs.Session.Unwinding
import ScriptCore.Proofs.Footprint.Plan
import ScriptCore.Proofs.Footprint.Rules
import ScriptCore.Proofs.Footprint.Course
import ScriptCore.Proofs.Footprint.Charges
import ScriptCore.Proofs.Footprint.Ceiling
import ScriptCore.Proofs.Binary64.Fields
import ScriptCore.Proofs.Value.Meaning
import ScriptCore.Proofs.Collection.Findable
import ScriptCore.Proofs.Numeral.Digits
import ScriptCore.Proofs.Value.Widths
import ScriptCore.Proofs.Footprint.Holdings
import ScriptCore.Proofs.Footprint.Headers
import ScriptCore.Proofs.Footprint.Order
import ScriptCore.Proofs.Binary64.Nearest
import ScriptCore.Proofs.Numeral.Spelling
import ScriptCore.Proofs.Numeral.Value
import ScriptCore.Proofs.Numeral.Grammar
import ScriptCore.Proofs.Binary64.Rounded
import ScriptCore.Proofs.Numeral.Radix
import ScriptCore.Proofs.Object.MapView
import ScriptCore.Numeral.Printed
import ScriptCore.Proofs.Numeral.Layouts
import ScriptCore.Proofs.Numeral.Printed
import ScriptCore.Proofs.Host.ReadBack
import ScriptCore.Proofs.Object.Definition
import ScriptCore.Proofs.Object.Course
import ScriptCore.Proofs.Object.Listing
import ScriptCore.Proofs.Object.PrototypeChains
import ScriptCore.Proofs.Footprint.Schemes
import ScriptCore.Proofs.Footprint.UniformArrays
import ScriptCore.Proofs.Scope.Frames
import ScriptCore.Proofs.Scope.Resolution
import ScriptCore.Proofs.Object.ArrayWrites
import ScriptCore.Proofs.Collection.Arena
import ScriptCore.Proofs.Footprint.Sampling
import ScriptCore.Proofs.Text.Canonical
import ScriptCore.Proofs.Numeral.Scan
import ScriptCore.Proofs.Property.InsertionOrder
