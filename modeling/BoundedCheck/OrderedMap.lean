/-!
# Maps in order of insertion

A finite map that lists its keys in the order in which they were first inserted.  A key that is
inserted again keeps its place and takes the new value.
-/

namespace BoundedCheck

/-- Keys with their values, in order of first insertion. -/
structure OrderedMap (κ α : Type) where
  entries : List (κ × α) := []
  deriving DecidableEq, Repr

namespace OrderedMap

variable {κ α : Type} [BEq κ]

/-- The map without keys. -/
def empty : OrderedMap κ α := {}

/-- The value of a key. -/
def get? (map : OrderedMap κ α) (key : κ) : Option α :=
  map.entries.lookup key

/-- Whether a key has a value. -/
def contains (map : OrderedMap κ α) (key : κ) : Bool :=
  (map.get? key).isSome

/-- Gives a key a value. -/
def insert (map : OrderedMap κ α) (key : κ) (value : α) : OrderedMap κ α :=
  if map.contains key then
    ⟨map.entries.map fun entry => if key == entry.1 then (entry.1, value) else entry⟩
  else
    ⟨map.entries ++ [(key, value)]⟩

/-- The keys in order. -/
def keys (map : OrderedMap κ α) : List κ :=
  map.entries.map Prod.fst

/-- The values in order of their keys. -/
def values (map : OrderedMap κ α) : List α :=
  map.entries.map Prod.snd

/-- The number of keys. -/
def size (map : OrderedMap κ α) : Nat :=
  map.entries.length

/-- Whether there is no key. -/
def isEmpty (map : OrderedMap κ α) : Bool :=
  map.entries.isEmpty

theorem keys_insert (map : OrderedMap κ α) (key : κ) (value : α) :
    (map.insert key value).keys = if map.contains key then map.keys else map.keys ++ [key] := by
  unfold insert keys
  split
  · simp only [List.map_map]
    congr 1
    funext entry
    simp only [Function.comp]
    split <;> rfl
  · simp

/-- Replacing the value of a key changes what is found under that key only. -/
theorem lookup_map_replace [LawfulBEq κ] (entries : List (κ × α)) (key other : κ) (value : α) :
    (entries.map fun entry => if key == entry.1 then (entry.1, value) else entry).lookup other =
      if other == key then (entries.lookup key).map fun _ => value else entries.lookup other := by
  induction entries with
  | nil => simp
  | cons entry rest ih =>
      obtain ⟨first, old⟩ := entry
      by_cases same : key = first
      · subst same
        by_cases wanted : other = key
        · simp [wanted]
        · simp [List.lookup_cons, ih, beq_eq_false_iff_ne.2 wanted]
      · by_cases wanted : other = first
        · subst wanted
          have differ : ¬ other = key := fun equal => same equal.symm
          simp [beq_eq_false_iff_ne.2 same, beq_eq_false_iff_ne.2 differ]
        · simp [List.lookup_cons, beq_eq_false_iff_ne.2 same, beq_eq_false_iff_ne.2 wanted, ih]

/-- After an insertion the key has the new value and every other key what it had. -/
theorem get?_insert [LawfulBEq κ] (map : OrderedMap κ α) (key other : κ) (value : α) :
    (map.insert key value).get? other = if other == key then some value else map.get? other := by
  unfold insert contains get?
  cases found : map.entries.lookup key with
  | none =>
      by_cases same : other = key
      · subst same
        simp [List.lookup_append, found]
      · simp [List.lookup_append, List.lookup_cons, beq_eq_false_iff_ne.2 same]
  | some old =>
      simp [lookup_map_replace, found]

end OrderedMap

end BoundedCheck
