import PackageHistory.Proofs.Cache.RoundTrip
import PackageHistory.Proofs.Cache.Unusable
import PackageHistory.Proofs.Cache.Valid
import PackageHistory.Proofs.Spared

/-!
# Loading

A read tells what is at its path: nothing, a cache, a cache of another schema version, or anything else. A load
gives the cache and removes what is none. It fails where that cannot be removed, and at a cache of another version
that cannot be named.
-/

namespace PackageHistory

namespace Disk

variable {d : Disk} {path : Text} {p : Path} {n : Node} {v : Json}

/-- A node stands at a path to which folders lead. -/
def Reaches (d : Disk) (p : Path) (n : Node) : Prop := d.blocked? p = none ∧ d.get? p = some n

/-- The file at a path can be read, and what it holds stands for a value. -/
def HoldsJson (d : Disk) (p : Path) (v : Json) : Prop := ∃ c, d.Holds p c ∧ Json.parse? c = some v

theorem HoldsJson.unique {v' : Json} (h : d.HoldsJson p v) (h' : d.HoldsJson p v') : v = v' := by
  obtain ⟨c, hc, hparse⟩ := h
  obtain ⟨c', hc', hparse'⟩ := h'
  have hsame : c = c' := by simpa using hc.2.symm.trans hc'.2
  rw [hsame, hparse'] at hparse
  exact (Option.some.inj hparse).symm

end Disk

namespace Cache

variable {path : Text} {expected : Number} {w : World}

/-! ## Reading -/

end Cache

end PackageHistory
