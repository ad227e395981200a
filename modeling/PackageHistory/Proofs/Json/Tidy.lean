import PackageHistory.Proofs.Json.MemberOrder
import PackageHistory.Proofs.Json.Numbers
import PackageHistory.Proofs.OrderedMap

/-!
# What reading gives

Every object that is read has each name once and its members in the order they are gone through, and
every integer is held exactly.
-/

namespace PackageHistory

namespace Json

/-! ## Tidy values -/

inductive Tidy : Json → Prop where
  | null : Tidy .null
  | bool (b : Bool) : Tidy (.bool b)
  | number {a : Number} : a.HoldsExact → Tidy (.number a)
  | string (s : Text) : Tidy (.string s)
  | array {elements : List Json} : (∀ v ∈ elements, Tidy v) → Tidy (.array elements)
  | object {members : List (Text × Json)} : InOrder members → (∀ m ∈ members, Tidy m.2) →
      Tidy (.object members)

theorem Tidy.elements {elements : List Json} (h : Tidy (.array elements)) : ∀ v ∈ elements, Tidy v := by
  cases h with
  | array h => exact h

theorem Tidy.members {members : List (Text × Json)} (h : Tidy (.object members)) :
    InOrder members ∧ ∀ m ∈ members, Tidy m.2 := by
  cases h with
  | object horder h => exact ⟨horder, h⟩

theorem Tidy.holdsExact {a : Number} (h : Tidy (.number a)) : a.HoldsExact := by
  cases h with
  | number h => exact h

theorem tidy_ofMembers {members : List (Text × Json)} (h : ∀ m ∈ members, Tidy m.2) :
    Tidy (ofMembers members) := by
  refine .object ⟨?_, memberOrder_memberOrder _⟩ fun m hm => ?_
  · exact ((memberOrder_perm _).map Prod.fst).nodup_iff.mpr (OrderedMap.ofList members).nodup
  · exact h m (OrderedMap.mem_of_mem_ofList ((memberOrder_perm _).mem_iff.mp hm))

theorem tidy_of_readWord {t rest : Text} {v : Json} (h : readWord t = some (v, rest)) : Tidy v := by
  unfold readWord at h
  split at h
  · cases h
    exact .null
  · split at h
    · cases h
      exact .bool true
    · split at h
      · cases h
        exact .bool false
      · cases h

/-- What the three readers give with some fuel. -/
structure TidyWithin (fuel : Nat) : Prop where
  value : ∀ {t v rest}, readValue fuel t = some (v, rest) → Tidy v
  elements : ∀ {t vs rest}, readElements fuel t = some (vs, rest) → ∀ v ∈ vs, Tidy v
  members : ∀ {t ms rest}, readMembers fuel t = some (ms, rest) → ∀ m ∈ ms, Tidy m.2

section Step

variable {fuel : Nat} {t rest : Text}

theorem TidyWithin.step_value (ih : TidyWithin fuel) {v : Json}
    (h : readValue (fuel + 1) t = some (v, rest)) : Tidy v := by
  unfold readValue at h
  split at h
  · split at h
    · cases h
      exact .object ⟨List.nodup_nil, memberOrder_of_names nofun⟩ nofun
    · obtain ⟨⟨ms, r⟩, hread, heq⟩ := Option.map_eq_some_iff.mp h
      cases heq
      exact tidy_ofMembers (ih.members hread)
  · split at h
    · cases h
      exact .array nofun
    · obtain ⟨⟨vs, r⟩, hread, heq⟩ := Option.map_eq_some_iff.mp h
      cases heq
      exact .array (ih.elements hread)
  · obtain ⟨⟨s, r⟩, -, heq⟩ := Option.map_eq_some_iff.mp h
    cases heq
    exact .string s
  · split at h
    · next hword =>
      cases h
      exact tidy_of_readWord hword
    · obtain ⟨⟨a, r⟩, hread, heq⟩ := Option.map_eq_some_iff.mp h
      cases heq
      exact .number (holdsExact_of_readNumber hread)

theorem TidyWithin.step_elements (ih : TidyWithin fuel) {vs : List Json}
    (h : readElements (fuel + 1) t = some (vs, rest)) : ∀ v ∈ vs, Tidy v := by
  unfold readElements at h
  split at h
  · cases h
  · next value t' hvalue =>
    split at h
    · obtain ⟨⟨vs', r⟩, hread, heq⟩ := Option.map_eq_some_iff.mp h
      cases heq
      exact List.forall_mem_cons.mpr ⟨ih.value hvalue, ih.elements hread⟩
    · cases h
      exact List.forall_mem_singleton.mpr (ih.value hvalue)
    · cases h

theorem TidyWithin.step_members (ih : TidyWithin fuel) {ms : List (Text × Json)}
    (h : readMembers (fuel + 1) t = some (ms, rest)) : ∀ m ∈ ms, Tidy m.2 := by
  unfold readMembers at h
  split at h
  · split at h
    · cases h
    · split at h
      · split at h
        · cases h
        · next value t' hvalue =>
          split at h
          · obtain ⟨⟨ms', r⟩, hread, heq⟩ := Option.map_eq_some_iff.mp h
            cases heq
            exact List.forall_mem_cons.mpr ⟨ih.value hvalue, ih.members hread⟩
          · cases h
            exact List.forall_mem_singleton.mpr (ih.value hvalue)
          · cases h
      · cases h
  · cases h

end Step

theorem tidyWithin (fuel : Nat) : TidyWithin fuel := by
  induction fuel with
  | zero => exact ⟨nofun, nofun, nofun⟩
  -- Each reader calls the others with one unit of fuel less.
  | succ fuel ih => exact ⟨ih.step_value, ih.step_elements, ih.step_members⟩

theorem tidy_of_parse? {t : Text} {v : Json} (h : parse? t = some v) : Tidy v := by
  unfold parse? at h
  split at h
  · next hread =>
    split at h
    · cases h
      exact (tidyWithin _).value hread
    · cases h
  · cases h

end Json

end PackageHistory
