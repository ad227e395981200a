import PackageHistory.Proofs.Cache.Decoding

/-!
# Valid caches

What a content has to be for an entry to be read from it, and what is read from all others.
-/

namespace PackageHistory

namespace Json

end Json

namespace Cache

variable {v : Json} {expected : Number} {path c : Text}

/-! ## Layout -/

end Cache

end PackageHistory
