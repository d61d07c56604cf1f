/-!
# Dictionaries in key order

A dictionary is the list of its entries, ordered by the code points of their
keys. `insert` keeps that order and replaces the value of a key that is present.
-/

namespace DocGraph

/-- The entries of a dictionary, in the order of their keys. -/
abbrev Dict (α : Type u) := List (String × α)

namespace Dict

variable {α : Type u}

/-- The value at `key`. -/
def get? (key : String) : Dict α → Option α
  | [] => none
  | (k, v) :: rest => if k = key then some v else get? key rest

/-- The dictionary with `value` at `key`. -/
def insert (key : String) (value : α) : Dict α → Dict α
  | [] => [(key, value)]
  | (k, v) :: rest =>
    if k < key then (k, v) :: insert key value rest
    else if k = key then (key, value) :: rest
    else (key, value) :: (k, v) :: rest

/-- The dictionary of a list of entries. Of two entries with one key the later
one counts. -/
def ofEntries (entries : List (String × α)) : Dict α :=
  entries.foldl (fun d e => insert e.1 e.2 d) []

/-- Whether some entry has this key. -/
def contains (key : String) (d : Dict α) : Bool :=
  (get? key d).isSome

/-- The keys in order. -/
def keys (d : Dict α) : List String :=
  d.map Prod.fst

@[simp] theorem get?_insert_self (key : String) (value : α) (d : Dict α) :
    get? key (insert key value d) = some value := by
  induction d with
  | nil => simp [insert, get?]
  | cons e rest ih =>
    obtain ⟨k, v⟩ := e
    by_cases hlt : k < key
    · have hne : k ≠ key := fun h => String.lt_irrefl key (h ▸ hlt)
      simp [insert, get?, hlt, hne, ih]
    · by_cases heq : k = key <;> simp [insert, get?, hlt, heq]

theorem get?_insert_of_ne {key other : String} (h : key ≠ other) (value : α) (d : Dict α) :
    get? other (insert key value d) = get? other d := by
  induction d with
  | nil => simp [insert, get?, h]
  | cons e rest ih =>
    obtain ⟨k, v⟩ := e
    by_cases hlt : k < key
    · simp [insert, get?, hlt, ih]
    · by_cases heq : k = key
      · subst heq
        simp [insert, get?, h]
      · simp [insert, get?, hlt, heq, h]

end Dict

end DocGraph
