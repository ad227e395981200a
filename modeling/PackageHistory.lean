import PackageHistory.Json.Access
import PackageHistory.Main
import PackageHistory.Proofs.Atom
import PackageHistory.Proofs.Cache.Added
import PackageHistory.Proofs.Cache.Again
import PackageHistory.Proofs.Cache.Anew
import PackageHistory.Proofs.Cache.Built
import PackageHistory.Proofs.Cache.Incremental
import PackageHistory.Proofs.Cache.Loading
import PackageHistory.Proofs.Cache.Placement
import PackageHistory.Proofs.Cache.Reloaded
import PackageHistory.Proofs.Cache.Unusable
import PackageHistory.Proofs.Change
import PackageHistory.Proofs.Evolution
import PackageHistory.Proofs.History.Listing
import PackageHistory.Proofs.History.Narrowed
import PackageHistory.Proofs.History.Removed
import PackageHistory.Proofs.History.Several
import PackageHistory.Proofs.History.ViewNames
import PackageHistory.Proofs.History.Views
import PackageHistory.Proofs.Log.Messages
import PackageHistory.Proofs.Log.Printed
import PackageHistory.Proofs.Masters
import PackageHistory.Proofs.Path.Resolve
import PackageHistory.Proofs.Scope.Named
import PackageHistory.Proofs.Shelf.Interrupts
import PackageHistory.Proofs.Shelf.Overlap
import PackageHistory.Proofs.Shelf.Reuse
import PackageHistory.Proofs.Tracker.Ignored
import PackageHistory.Proofs.Tracker.Isolation
import PackageHistory.Proofs.Tracker.Registry
import PackageHistory.Proofs.Version.Preorder
import PackageHistory.Script
import PackageHistory.Sorting.Basic
import PackageHistory.Subprocess
