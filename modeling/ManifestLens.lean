import ManifestLens.Cache.Sweeper
import ManifestLens.Cancellation
import ManifestLens.Main
import ManifestLens.Report.Service
import ManifestLens.Proofs.Editor.Line
import ManifestLens.Proofs.Editor.Offer
import ManifestLens.Proofs.Manifest.Slices
import ManifestLens.Proofs.Written.Table
import ManifestLens.Proofs.Written.Document
import ManifestLens.Proofs.Schedule.Process
import ManifestLens.Proofs.Schedule.Solo
import ManifestLens.Proofs.Index.Retry
import ManifestLens.Proofs.Index.Classification
import ManifestLens.Proofs.Service.Lookup
import ManifestLens.Proofs.Cache.Basic
import ManifestLens.Proofs.Service.Coherence
import ManifestLens.Proofs.Service.Interleaving
import ManifestLens.Proofs.Service.Invariant
import ManifestLens.Proofs.Schedule.Tasks
import ManifestLens.Proofs.Service.Turns
import ManifestLens.Proofs.Service.Preservation
import ManifestLens.Proofs.Service.Course
import ManifestLens.Proofs.Service.Sharing
import ManifestLens.Proofs.Cache.Run
import ManifestLens.Proofs.Cache.History
import ManifestLens.Proofs.Error.Result
import ManifestLens.Proofs.Version.NaturalOrder
import ManifestLens.Proofs.Index.Document
import ManifestLens.Proofs.Service.Containment
import ManifestLens.Proofs.Version.Spelling
import ManifestLens.Proofs.Version.Release
import ManifestLens.Proofs.Constraint.Bound
import ManifestLens.Proofs.Constraint.Allowing
import ManifestLens.Proofs.Constraint.Series
import ManifestLens.Proofs.Cache.Inclusion
import ManifestLens.Proofs.Number.Rounding
import ManifestLens.Proofs.Cache.Sweeping
import ManifestLens.Proofs.Manifest.Comment
import ManifestLens.Proofs.Schedule.Abides
import ManifestLens.Proofs.Service.Reconfiguration
import ManifestLens.Proofs.Schedule.Company
import ManifestLens.Proofs.Service.Company
import ManifestLens.Proofs.Editor.Cancellation
import ManifestLens.Proofs.Editor.Gathering
import ManifestLens.Proofs.Editor.Waiting
import ManifestLens.Proofs.Editor.Views
import ManifestLens.Proofs.Editor.Boundary
import ManifestLens.Proofs.Ordering.Stable
import ManifestLens.Proofs.Version.Preorder
import ManifestLens.Proofs.Json.Dictionary
import ManifestLens.Proofs.Index.Versions
import ManifestLens.Proofs.Text.Utf8
import ManifestLens.Proofs.Files.Operation
import ManifestLens.Proofs.CommandLine.Fix
import ManifestLens.Proofs.Service.Conduct
import ManifestLens.Proofs.Service.Shut
import ManifestLens.Proofs.Service.Closing
import ManifestLens.Proofs.Service.Refusal
import ManifestLens.Proofs.Version.Agreement
import ManifestLens.Proofs.Version.PublicSpelling
import ManifestLens.Proofs.Version.Alignment
import ManifestLens.Proofs.Constraint.Greatest
import ManifestLens.Proofs.Constraint.Compound
import ManifestLens.Proofs.Constraint.Shorthand
import ManifestLens.Proofs.Version.PreRelease
import ManifestLens.Proofs.Index.Releases
import ManifestLens.Proofs.Version.Order
import ManifestLens.Proofs.Buffer.Simultaneous
import ManifestLens.Proofs.Written.HalfTyped
import ManifestLens.Proofs.Manifest.Tables
import ManifestLens.Proofs.Manifest.QuotedKey
import ManifestLens.Proofs.Editor.ForeignArray
import ManifestLens.Proofs.Toml.Dictionary
import ManifestLens.Proofs.Config.Options
import ManifestLens.Proofs.Config.Loading
import ManifestLens.Proofs.Index.Url
import ManifestLens.Proofs.Config.Validation
import ManifestLens.Proofs.Manifest.Rereading
import ManifestLens.Proofs.Editor.Settling
import ManifestLens.Proofs.Prefetch.Result
import ManifestLens.Proofs.Editor.Ranking
import ManifestLens.Proofs.Cache.Sweeper
import ManifestLens.Proofs.Files.Manifests
import ManifestLens.Proofs.Console.Screen
import ManifestLens.Proofs.Cancellation
