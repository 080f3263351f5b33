/-!
# Ordered dictionaries

A finite map whose entries are listed in increasing order of their keys.  The order is part of the
data: what is printed, declared or dumped "by name" or "by number" walks the entries as they stand.
Every change goes through `alter`, which replaces the value of a key that is there and otherwise
puts a new entry in front of the first larger key.
-/

namespace Redzone

/-- A finite map, listed in increasing order of its keys. -/
structure Dict (κ β : Type) where
  /-- The entries, in key order. -/
  entries : List (κ × β)
  deriving DecidableEq

namespace Dict

variable {κ β : Type} [DecidableEq κ]

def empty : Dict κ β := ⟨[]⟩

/-- The value of the first entry with key `key`. -/
def lookup (key : κ) : List (κ × β) → Option β
  | [] => none
  | (other, value) :: rest => if other = key then some value else lookup key rest

def get? (dict : Dict κ β) (key : κ) : Option β := lookup key dict.entries

def contains (dict : Dict κ β) (key : κ) : Bool := (dict.get? key).isSome

def size (dict : Dict κ β) : Nat := dict.entries.length

/-- Give `key` the value `update` makes of its old one. -/
def alter [LT κ] [DecidableLT κ] (dict : Dict κ β) (key : κ) (update : Option β → β) : Dict κ β :=
  match dict.get? key with
  | some old =>
      ⟨dict.entries.map fun entry => if entry.1 = key then (key, update (some old)) else entry⟩
  | none =>
      ⟨dict.entries.takeWhile (fun entry => entry.1 < key) ++ (key, update none) ::
        dict.entries.dropWhile (fun entry => entry.1 < key)⟩

def insert [LT κ] [DecidableLT κ] (dict : Dict κ β) (key : κ) (value : β) : Dict κ β :=
  dict.alter key fun _ => value

@[simp] theorem get?_empty (key : κ) : (empty : Dict κ β).get? key = none := rfl

theorem lookup_map_replace (entries : List (κ × β)) (key other : κ) (value : β) :
    lookup other (entries.map fun entry => if entry.1 = key then (key, value) else entry) =
      if other = key then (lookup key entries).map fun _ => value else lookup other entries := by
  induction entries with
  | nil => by_cases h : other = key <;> simp [lookup, h]
  | cons entry rest ih =>
      obtain ⟨k, v⟩ := entry
      by_cases hk : k = key <;> by_cases ho : other = key <;> by_cases hko : k = other <;>
        simp_all [lookup]

theorem lookup_append (front back : List (κ × β)) (key : κ) :
    lookup key (front ++ back) = (lookup key front).or (lookup key back) := by
  induction front with
  | nil => simp [lookup]
  | cons entry rest ih =>
      obtain ⟨k, v⟩ := entry
      by_cases hk : k = key <;> simp [lookup, hk, ih]

/-- Altering a key changes what is stored under it and nothing else. -/
theorem get?_alter [LT κ] [DecidableLT κ] (dict : Dict κ β) (key other : κ)
    (update : Option β → β) :
    (dict.alter key update).get? other =
      if other = key then some (update (dict.get? key)) else dict.get? other := by
  unfold alter
  split
  · rename_i old hold
    have hold' : lookup key dict.entries = some old := hold
    by_cases h : other = key <;> simp [get?, lookup_map_replace, h, hold']
  · rename_i hnone
    have hnone' : lookup key dict.entries = none := hnone
    have hsplit : dict.entries =
        dict.entries.takeWhile (fun entry => entry.1 < key) ++
          dict.entries.dropWhile (fun entry => entry.1 < key) :=
      (List.takeWhile_append_dropWhile).symm
    have hfront : lookup key (dict.entries.takeWhile fun entry => entry.1 < key) = none := by
      rw [hsplit, lookup_append] at hnone'
      exact (Option.or_eq_none_iff.mp hnone').1
    by_cases h : other = key
    · subst h
      simp [get?, lookup_append, lookup, hfront, hnone']
    · have hne : ¬ key = other := fun heq => h heq.symm
      rw [if_neg h]
      show lookup other _ = lookup other dict.entries
      conv => rhs; rw [hsplit, lookup_append]
      simp [lookup_append, lookup, hne]

@[simp] theorem get?_insert [LT κ] [DecidableLT κ] (dict : Dict κ β) (key other : κ) (value : β) :
    (dict.insert key value).get? other = if other = key then some value else dict.get? other :=
  get?_alter dict key other _

end Dict

end Redzone
