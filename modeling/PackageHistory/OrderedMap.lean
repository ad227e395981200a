/-!
# Maps that remember the order in which their keys came

A key keeps the place at which it was first put, also when its value changes later.
-/

universe u v w

namespace PackageHistory

/-! ## Lists of pairs -/

namespace Entries

variable {κ : Type u} {α : Type v} {β : Type w} [DecidableEq κ]

/-- The value of the first pair with this key. -/
def lookup (k : κ) : List (κ × α) → Option α
  | [] => none
  | (k', a) :: rest => if k' = k then some a else lookup k rest

/-- Changes the value of a key where it stands, or puts the key at the end. -/
def alter (k : κ) (f : Option α → α) : List (κ × α) → List (κ × α)
  | [] => [(k, f none)]
  | (k', a) :: rest => if k' = k then (k', f (some a)) :: rest else (k', a) :: alter k f rest

def keys (entries : List (κ × α)) : List κ := entries.map Prod.fst

theorem keys_alter (k : κ) (f : Option α → α) (entries : List (κ × α)) :
    keys (alter k f entries) = if k ∈ keys entries then keys entries else keys entries ++ [k] := by
  induction entries with
  | nil => simp [alter, keys]
  | cons e rest ih =>
    obtain ⟨k', a⟩ := e
    by_cases h : k' = k
    · simp [alter, keys, h]
    · have h' : ¬ k = k' := fun e => h e.symm
      simp only [keys] at ih
      simp only [alter, if_neg h, keys, List.map_cons, ih, List.mem_cons, h', false_or]
      split <;> simp [*]

theorem nodup_keys_alter {k : κ} {f : Option α → α} {entries : List (κ × α)}
    (h : (keys entries).Nodup) : (keys (alter k f entries)).Nodup := by
  rw [keys_alter]
  split
  · exact h
  · next hk =>
    rw [List.nodup_append]
    refine ⟨h, by simp, ?_⟩
    intro a ha b hb
    rw [List.mem_singleton.mp hb]
    exact fun e => hk (e ▸ ha)

theorem lookup_alter_self (k : κ) (f : Option α → α) (entries : List (κ × α)) :
    lookup k (alter k f entries) = some (f (lookup k entries)) := by
  induction entries with
  | nil => simp [alter, lookup]
  | cons e rest ih =>
    obtain ⟨k', a⟩ := e
    by_cases h : k' = k <;> simp [alter, lookup, h, ih]

theorem lookup_alter_of_ne {k j : κ} (h : j ≠ k) (f : Option α → α) (entries : List (κ × α)) :
    lookup j (alter k f entries) = lookup j entries := by
  have h' : ¬ k = j := fun e => h e.symm
  induction entries with
  | nil => simp [alter, lookup, h']
  | cons e rest ih =>
    obtain ⟨k', a⟩ := e
    by_cases hk : k' = k
    · subst hk; simp [alter, lookup, h']
    · simp [alter, lookup, hk, ih]

theorem lookup_isSome_iff {k : κ} {entries : List (κ × α)} :
    (lookup k entries).isSome ↔ k ∈ keys entries := by
  induction entries with
  | nil => simp [lookup, keys]
  | cons e rest ih =>
    obtain ⟨k', a⟩ := e
    simp only [keys] at ih
    by_cases h : k' = k
    · simp [lookup, keys, h]
    · have h' : ¬ k = k' := fun e => h e.symm
      simp [lookup, keys, h, h', ih]

end Entries

/-! ## Maps -/

structure OrderedMap (κ : Type u) (α : Type v) where
  entries : List (κ × α)
  nodup : (Entries.keys entries).Nodup
  deriving DecidableEq

namespace OrderedMap

variable {κ : Type u} {α : Type v} {β : Type w}

def empty : OrderedMap κ α := ⟨[], by simp [Entries.keys]⟩

instance : EmptyCollection (OrderedMap κ α) := ⟨empty⟩
instance : Inhabited (OrderedMap κ α) := ⟨empty⟩

def keys (m : OrderedMap κ α) : List κ := Entries.keys m.entries

def size (m : OrderedMap κ α) : Nat := m.entries.length

def isEmpty (m : OrderedMap κ α) : Bool := m.entries.isEmpty

/-- Applies a function to every value; keys and their order stay. -/
def map (f : α → β) (m : OrderedMap κ α) : OrderedMap κ β where
  entries := m.entries.map fun e => (e.1, f e.2)
  nodup := by
    have h : Entries.keys (m.entries.map fun e => (e.1, f e.2)) = Entries.keys m.entries := by
      simp [Entries.keys, Function.comp_def]
    exact h ▸ m.nodup

@[simp] theorem keys_map (f : α → β) (m : OrderedMap κ α) : (m.map f).keys = m.keys := by
  simp [keys, map, Entries.keys, Function.comp_def]

variable [DecidableEq κ]

def get? (m : OrderedMap κ α) (k : κ) : Option α := Entries.lookup k m.entries

def contains (m : OrderedMap κ α) (k : κ) : Bool := (m.get? k).isSome

/-- Changes the value of a key where it stands, or puts the key at the end. -/
def alter (m : OrderedMap κ α) (k : κ) (f : Option α → α) : OrderedMap κ α :=
  ⟨Entries.alter k f m.entries, Entries.nodup_keys_alter m.nodup⟩

def insert (m : OrderedMap κ α) (k : κ) (a : α) : OrderedMap κ α := m.alter k fun _ => a

/-- Puts the pairs one after another. -/
def ofList (pairs : List (κ × α)) : OrderedMap κ α :=
  pairs.foldl (fun m e => m.insert e.1 e.2) empty

/-- Leaves out the pairs that fail a test. -/
def filter (p : κ → α → Bool) (m : OrderedMap κ α) : OrderedMap κ α where
  entries := m.entries.filter fun e => p e.1 e.2
  nodup := m.nodup.sublist (List.Sublist.map _ List.filter_sublist)

/-! ## What each operation does to a look-up -/

@[simp] theorem get?_empty (k : κ) : (empty : OrderedMap κ α).get? k = none := rfl

@[simp] theorem get?_alter_self (m : OrderedMap κ α) (k : κ) (f : Option α → α) :
    (m.alter k f).get? k = some (f (m.get? k)) :=
  Entries.lookup_alter_self k f m.entries

theorem get?_alter_of_ne (m : OrderedMap κ α) {j k : κ} (h : j ≠ k) (f : Option α → α) :
    (m.alter k f).get? j = m.get? j :=
  Entries.lookup_alter_of_ne h f m.entries

theorem keys_alter (m : OrderedMap κ α) (k : κ) (f : Option α → α) :
    (m.alter k f).keys = if k ∈ m.keys then m.keys else m.keys ++ [k] :=
  Entries.keys_alter k f m.entries

@[simp] theorem get?_map (f : α → β) (m : OrderedMap κ α) (k : κ) :
    (m.map f).get? k = (m.get? k).map f := by
  show Entries.lookup k (m.entries.map fun e => (e.1, f e.2)) = _
  unfold get?
  induction m.entries with
  | nil => rfl
  | cons e rest ih =>
    by_cases h : e.1 = k <;> simp [Entries.lookup, h, ih]

end OrderedMap

end PackageHistory
