import DocGraph.Dict
import DocGraph.Proofs.Outcome
import Mathlib.Data.List.Basic

/-!
# Dictionaries of entries

What a dictionary holds that entries have been inserted into: its keys are in order
(`isSorted_insert`), and the entries can be looked up if no key comes twice
(`get?_ofEntries`). Entries whose keys are in order are the dictionary themselves
(`ofEntries_of_isSorted`). An entry takes the place of another one with its key
(`insert_insert_self`), and entries with different keys may come in any order
(`insert_comm`).
-/

namespace DocGraph.Dict

variable {α β : Type} {d : Dict α} {entries : List (String × α)} {key other : String} {value : α}

theorem get?_insert (key other : String) (value : α) (d : Dict α) :
    get? other (insert key value d) = if key = other then some value else get? other d := by
  by_cases h : key = other
  · rw [if_pos h, ← h, get?_insert_self]
  · rw [if_neg h, get?_insert_of_ne h]

/-! ## Order -/

/-- Whether the keys are in order, which none is twice then. -/
def IsSorted (d : Dict α) : Prop :=
  (keys d).Pairwise (· < ·)

theorem keys_cons (key : String) (value : α) (d : Dict α) :
    keys ((key, value) :: d) = key :: keys d :=
  rfl

/-- A step over the entries that leaves their keys as they are. -/
theorem keys_of_mapM {f : String × α → Outcome (String × β)} {d' : Dict β}
    (h : d.mapM f = .ok d') (hf : ∀ e e', f e = .ok e' → e'.1 = e.1) : keys d' = keys d :=
  Outcome.map_eq_of_mapM h hf

theorem mem_keys_insert : other ∈ keys (insert key value d) ↔ other = key ∨ other ∈ keys d := by
  induction d with
  | nil => rw [insert, keys_cons, List.mem_cons]
  | cons e rest ih =>
    obtain ⟨k, v⟩ := e
    by_cases hlt : k < key
    · rw [insert, if_pos hlt, keys_cons, List.mem_cons, ih, keys_cons, List.mem_cons]
      exact or_left_comm
    · by_cases heq : k = key
      · rw [insert, if_neg hlt, if_pos heq, keys_cons, keys_cons, heq, List.mem_cons, ← or_assoc,
          or_self]
      · rw [insert, if_neg hlt, if_neg heq, keys_cons, List.mem_cons]

/-- Inserting keeps the keys in order. -/
theorem isSorted_insert (h : IsSorted d) : IsSorted (insert key value d) := by
  induction d with
  | nil => exact List.pairwise_singleton _ _
  | cons e rest ih =>
    obtain ⟨k, v⟩ := e
    obtain ⟨hhead, htail⟩ := List.pairwise_cons.mp h
    by_cases hlt : k < key
    · rw [insert, if_pos hlt]
      refine List.pairwise_cons.mpr ⟨fun other hother => ?_, ih htail⟩
      rcases mem_keys_insert.mp hother with rfl | hmem
      · exact hlt
      · exact hhead other hmem
    · by_cases heq : k = key
      · rw [insert, if_neg hlt, if_pos heq]
        exact heq ▸ h
      · have hgt : key < k := by
          by_contra hge
          exact heq (String.le_antisymm hge hlt)
        rw [insert, if_neg hlt, if_neg heq]
        refine List.pairwise_cons.mpr ⟨fun other hother => ?_, h⟩
        rcases List.mem_cons.mp hother with rfl | hmem
        · exact hgt
        · exact String.lt_trans hgt (hhead other hmem)

/-- No key is in a dictionary twice. -/
theorem IsSorted.nodup (h : IsSorted d) : (keys d).Nodup :=
  List.Pairwise.imp (fun {key other} (hlt : key < other) (he : key = other) =>
    String.lt_irrefl other (he ▸ hlt)) h

/-! ## Inserting twice -/

/-- An entry takes the place of another one with its key. -/
theorem insert_insert_self (key : String) (value value' : α) (d : Dict α) :
    insert key value (insert key value' d) = insert key value d := by
  induction d with
  | nil => simp only [insert, if_neg (String.lt_irrefl key), if_true]
  | cons e rest ih =>
    obtain ⟨k, v⟩ := e
    by_cases hlt : k < key
    · simp only [insert, if_pos hlt, ih]
    by_cases heq : k = key
    · subst heq
      simp only [insert, if_neg (String.lt_irrefl k), if_true]
    · simp only [insert, if_neg hlt, if_neg heq, if_neg (String.lt_irrefl key), if_true]

theorem insert_comm_of_lt (h : key < other) (value value' : α) (d : Dict α) :
    insert key value (insert other value' d) = insert other value' (insert key value d) := by
  have hother : ¬other < key := fun hlt => String.lt_irrefl key (String.lt_trans h hlt)
  have hne : other ≠ key := fun he => String.lt_irrefl key (he ▸ h)
  induction d with
  | nil => simp only [insert, if_neg hother, if_neg hne, if_pos h]
  | cons e rest ih =>
    obtain ⟨k, v⟩ := e
    by_cases hlt : k < key
    · simp only [insert, if_pos hlt, if_pos (String.lt_trans hlt h), ih]
    by_cases heq : k = key
    · subst heq
      simp only [insert, if_pos h, if_neg (String.lt_irrefl k), if_true]
    · -- both entries come before `k`, or the second one after it
      by_cases hk : k < other
      · simp only [insert, if_neg hlt, if_neg heq, if_pos hk, if_pos h]
      by_cases hk' : k = other
      · simp only [insert, if_neg hlt, if_neg heq, if_neg hk, if_pos hk', if_neg hother, if_neg hne,
          if_pos h]
      · simp only [insert, if_neg hlt, if_neg heq, if_neg hk, if_neg hk', if_neg hother, if_neg hne,
          if_pos h]

/-- Entries with different keys may come in any order. -/
theorem insert_comm (h : key ≠ other) (value value' : α) (d : Dict α) :
    insert key value (insert other value' d) = insert other value' (insert key value d) := by
  by_cases hlt : key < other
  · exact insert_comm_of_lt hlt value value' d
  · have hgt : other < key := by
      by_contra hge
      exact h (String.le_antisymm hge hlt)
    exact (insert_comm_of_lt hgt value' value d).symm

/-! ## Looking up entries -/

theorem mem_of_get? (h : get? key d = some value) : (key, value) ∈ d := by
  induction d with
  | nil => cases h
  | cons e rest ih =>
    obtain ⟨k, v⟩ := e
    by_cases hk : k = key
    · rw [get?, if_pos hk, Option.some.injEq] at h
      rw [hk, h]
      exact List.mem_cons_self
    · rw [get?, if_neg hk] at h
      exact List.mem_cons_of_mem _ (ih h)

theorem mem_keys_of_get? (h : get? key d = some value) : key ∈ keys d :=
  List.mem_map.mpr ⟨_, mem_of_get? h, rfl⟩

theorem contains_iff : contains key d = true ↔ key ∈ keys d := by
  rw [contains, Option.isSome_iff_exists]
  refine ⟨fun ⟨_, h⟩ => mem_keys_of_get? h, fun h => ?_⟩
  induction d with
  | nil => cases h
  | cons e rest ih =>
    obtain ⟨k, v⟩ := e
    by_cases hk : k = key
    · exact ⟨v, if_pos hk⟩
    · rw [get?, if_neg hk]
      exact ih ((List.mem_cons.mp h).resolve_left (Ne.symm hk))

theorem get?_foldl_insert
    (h : get? key (entries.foldl (fun d e => insert e.1 e.2 d) d) = some value) :
    (key, value) ∈ entries ∨ get? key d = some value := by
  induction entries generalizing d with
  | nil => exact .inr h
  | cons e entries ih =>
    rcases ih h with hm | hd
    · exact .inl (List.mem_cons_of_mem _ hm)
    · rw [get?_insert] at hd
      by_cases he : e.1 = key
      · rw [if_pos he, Option.some.injEq] at hd
        subst he hd
        exact .inl List.mem_cons_self
      · rw [if_neg he] at hd
        exact .inr hd

/-- The value at a key of a dictionary of entries is that of an entry. -/
theorem mem_of_get?_ofEntries (h : get? key (ofEntries entries) = some value) :
    (key, value) ∈ entries :=
  (get?_foldl_insert h).resolve_right nofun

theorem get?_foldl_insert_of_notMem (h : key ∉ entries.map Prod.fst) :
    get? key (entries.foldl (fun d e => insert e.1 e.2 d) d) = get? key d := by
  induction entries generalizing d with
  | nil => rfl
  | cons e entries ih =>
    rw [List.map_cons, List.mem_cons, not_or] at h
    rw [List.foldl_cons, ih h.2, get?_insert_of_ne (Ne.symm h.1)]

/-- Entries with different keys can be looked up. -/
theorem get?_ofEntries (hdistinct : (entries.map Prod.fst).Nodup) (h : (key, value) ∈ entries) :
    get? key (ofEntries entries) = some value := by
  unfold ofEntries
  generalize ([] : Dict α) = d
  induction entries generalizing d with
  | nil => cases h
  | cons e entries ih =>
    rw [List.map_cons, List.nodup_cons] at hdistinct
    rcases List.mem_cons.mp h with rfl | h
    · rw [List.foldl_cons, get?_foldl_insert_of_notMem hdistinct.1, get?_insert_self]
    · exact ih hdistinct.2 h _

/-! ## Entries in order -/

theorem isSorted_foldl_insert (h : IsSorted d) :
    IsSorted (entries.foldl (fun d e => insert e.1 e.2 d) d) := by
  induction entries generalizing d with
  | nil => exact h
  | cons e entries ih => exact ih (isSorted_insert h)

/-- A dictionary of entries is in order. -/
theorem isSorted_ofEntries (entries : List (String × α)) : IsSorted (ofEntries entries) :=
  isSorted_foldl_insert List.Pairwise.nil

theorem insert_ne_nil : insert key value d ≠ [] :=
  List.ne_nil_of_mem (mem_of_get? (get?_insert_self key value d))

theorem mem_of_mem_insert {e : String × α} (h : e ∈ insert key value d) :
    e = (key, value) ∨ e ∈ d := by
  induction d with
  | nil => exact .inl (List.mem_singleton.mp h)
  | cons e' rest ih =>
    obtain ⟨k, v⟩ := e'
    rw [insert] at h
    split at h
    · rcases List.mem_cons.mp h with rfl | h
      · exact .inr List.mem_cons_self
      · exact (ih h).imp_right (List.mem_cons_of_mem _)
    · split at h
      · exact (List.mem_cons.mp h).imp_right (List.mem_cons_of_mem _)
      · exact List.mem_cons.mp h

theorem mem_of_mem_ofEntries {e : String × α} (h : e ∈ ofEntries entries) : e ∈ entries := by
  have hfold (d : Dict α) (he : e ∈ entries.foldl (fun d e => insert e.1 e.2 d) d) :
      e ∈ entries ∨ e ∈ d := by
    clear h
    induction entries generalizing d with
    | nil => exact .inr he
    | cons e' entries ih =>
      rcases ih _ he with he | he
      · exact .inl (List.mem_cons_of_mem _ he)
      · rcases mem_of_mem_insert he with rfl | he
        · exact .inl List.mem_cons_self
        · exact .inr he
  exact (hfold [] h).resolve_right List.not_mem_nil

/-- An entry whose key is after all others comes last. -/
theorem insert_of_lt (h : ∀ other ∈ keys d, other < key) :
    insert key value d = d ++ [(key, value)] := by
  induction d with
  | nil => rfl
  | cons e rest ih =>
    obtain ⟨k, v⟩ := e
    rw [keys_cons, List.forall_mem_cons] at h
    rw [insert, if_pos h.1, ih h.2, List.cons_append]

/-- An entry that is there already changes nothing. -/
theorem insert_of_get? (hd : IsSorted d) (h : get? key d = some value) :
    insert key value d = d := by
  induction d with
  | nil => cases h
  | cons e rest ih =>
    obtain ⟨k, v⟩ := e
    obtain ⟨hhead, htail⟩ := List.pairwise_cons.mp hd
    by_cases heq : k = key
    · rw [get?, if_pos heq, Option.some.injEq] at h
      rw [insert, if_neg (heq ▸ String.lt_irrefl k), if_pos heq, heq, h]
    · rw [get?, if_neg heq] at h
      rw [insert, if_pos (hhead key (mem_keys_of_get? h)), ih htail h]

/-- Entries in order are a dictionary already. -/
theorem ofEntries_of_isSorted (h : IsSorted entries) : ofEntries entries = entries := by
  have hfold (d : Dict α) (hd : IsSorted (d ++ entries)) :
      entries.foldl (fun d e => insert e.1 e.2 d) d = d ++ entries := by
    clear h
    induction entries generalizing d with
    | nil => exact (List.append_nil d).symm
    | cons e entries ih =>
      have hlast : ∀ other ∈ keys d, other < e.1 := fun other hother => by
        rw [IsSorted, keys, List.map_append, List.pairwise_append] at hd
        exact hd.2.2 other hother e.1 List.mem_cons_self
      rw [List.foldl_cons, insert_of_lt hlast, ih, List.append_assoc, List.singleton_append]
      rwa [List.append_assoc, List.singleton_append]
  exact hfold [] h

theorem perm_insert (h : key ∉ keys d) : (insert key value d).Perm ((key, value) :: d) := by
  induction d with
  | nil => exact .refl _
  | cons e rest ih =>
    obtain ⟨k, v⟩ := e
    rw [keys_cons, List.mem_cons, not_or] at h
    rw [insert, if_neg (Ne.symm h.1)]
    split
    · exact ((ih h.2).cons _).trans (.swap _ _ _)
    · exact .refl _

/-- The entries of a dictionary are those that it is made of, if no key comes twice. -/
theorem perm_ofEntries (h : (entries.map Prod.fst).Nodup) : (ofEntries entries).Perm entries := by
  have hfold (d : Dict α) (hnew : ∀ key ∈ keys d, key ∉ entries.map Prod.fst) :
      (entries.foldl (fun d e => insert e.1 e.2 d) d).Perm (entries ++ d) := by
    induction entries generalizing d with
    | nil => exact .refl _
    | cons e entries ih =>
      rw [List.map_cons, List.nodup_cons] at h
      have hd : e.1 ∉ keys d := fun hmem => hnew e.1 hmem List.mem_cons_self
      refine (ih h.2 _ fun key hkey => ?_).trans
        (((perm_insert hd).append_left entries).trans List.perm_middle)
      rcases mem_keys_insert.mp hkey with rfl | hkey
      · exact h.1
      · exact fun hmem => hnew key hkey (List.mem_cons_of_mem _ hmem)
  have hperm := hfold [] nofun
  rwa [List.append_nil] at hperm

/-- The value at a key when all values are changed. -/
theorem get?_map (f : α → β) (key : String) (d : Dict α) :
    get? key (d.map fun e => (e.1, f e.2)) = (get? key d).map f := by
  induction d with
  | nil => rfl
  | cons e rest ih =>
    rw [List.map_cons, get?, get?, ih]
    split <;> rfl

theorem insert_map (f : α → β) :
    insert key (f value) (d.map fun e => (e.1, f e.2)) =
      (insert key value d).map fun e => (e.1, f e.2) := by
  induction d with
  | nil => rfl
  | cons e rest ih =>
    obtain ⟨k, v⟩ := e
    rw [List.map_cons, insert, insert]
    split_ifs
    · rw [List.map_cons, ih]
    · rfl
    · rfl

/-- Changing the values of entries changes those of their dictionary. -/
theorem ofEntries_map (f : α → β) (entries : List (String × α)) :
    ofEntries (entries.map fun e => (e.1, f e.2)) =
      (ofEntries entries).map fun e => (e.1, f e.2) := by
  have hfold (d : Dict α) :
      (entries.map fun e => (e.1, f e.2)).foldl (fun d e => insert e.1 e.2 d)
          (d.map fun e => (e.1, f e.2)) =
        (entries.foldl (fun d e => insert e.1 e.2 d) d).map fun e => (e.1, f e.2) := by
    induction entries generalizing d with
    | nil => rfl
    | cons e entries ih =>
      rw [List.map_cons, List.foldl_cons]
      dsimp only
      rw [insert_map, ih, List.foldl_cons]
  exact hfold []

end DocGraph.Dict
