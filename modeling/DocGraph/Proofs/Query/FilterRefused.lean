import DocGraph.Proofs.Query.FilterReading

/-!
# Filters that are refused

A filter is refused if it is no object, if a connective joins no list, or if one of the keys of an
object with operators is no operator, at any depth of the connectives (`FilterFails`). Every other
filter is read (`reads_filter`).
-/

namespace DocGraph.Spec

open DocGraph.Filter (readEntry readEntries_cons)
open Json (Value)
open Outcome (Reads)

variable {key : String} {v : Value} {e : Error} {entries : List (String × Value)}

/-- Whether a key joins filters. -/
def IsConnective (key : String) : Prop :=
  key = "$and" ∨ key = "$or"

/-- Why a filter is refused. -/
inductive FilterFails : Value → Error → Prop
  | notObject {v : Value} : (∀ entries, v ≠ .obj entries) →
    FilterFails v (.invalidQuery (.objectExpected "filter"))
  | notList {entries : List (String × Value)} {key : String} {v : Value} : (key, v) ∈ entries →
    IsConnective key → (∀ items, v ≠ .arr items) →
      FilterFails (.obj entries) (.invalidQuery (.listExpected key))
  | child {entries : List (String × Value)} {key : String} {items : List Value} {v : Value}
      {e : Error} : (key, .arr items) ∈ entries → IsConnective key → v ∈ items →
    FilterFails v e → FilterFails (.obj entries) e
  | negated {entries : List (String × Value)} {v : Value} {e : Error} : ("$not", v) ∈ entries →
    FilterFails v e → FilterFails (.obj entries) e
  | operator {entries operators : List (String × Value)} {path key : String} :
    (path, .obj operators) ∈ entries → ¬IsConnective path → path ≠ "$not" →
      (∃ m ∈ operators, isDollarKey m.1 = true) → key ∈ Dict.keys operators →
      (∀ o : Operator, o.key ≠ key) → FilterFails (.obj entries) (.unknownOperator key)

theorem ofKey_eq_error (h : Operator.ofKey key = .error e) :
    (∀ o : Operator, o.key ≠ key) ∧ e = .unknownOperator key := by
  refine ⟨?_, ?_⟩
  · rintro o rfl
    rw [Operator.ofKey_key] at h
    cases h
  · unfold Operator.ofKey at h
    split at h
    · cases h
    · exact (Except.error.inj h).symm

/-! ## Refused filters have a reason -/

theorem fails_of_readComparisons {path : String} (h : readComparisons path v = .error e)
    (hmem : (path, v) ∈ entries) (hpath : ¬IsConnective path) (hnot : path ≠ "$not") :
    FilterFails (.obj entries) e := by
  cases v with
  | obj operators =>
    simp only [readComparisons] at h
    split at h
    · next hany =>
      obtain ⟨m, hm, h⟩ := Outcome.exists_of_mapM_eq_error h
      obtain ⟨hunknown, rfl⟩ := ofKey_eq_error (Outcome.bind_pure_eq_error.mp h)
      exact .operator hmem hpath hnot (by simpa using hany) (List.mem_map_of_mem hm) hunknown
    · cases h
  | _ => cases h

mutual

theorem fails_of_readFilter : ∀ {v : Value} {e : Error}, readFilter v = .error e → FilterFails v e
  | .obj entries, e, h =>
    fails_of_readEntries (Outcome.bind_pure_eq_error.mp h) (List.Subset.refl entries)
  | .null, _, h | .bool _, _, h | .num _, _, h | .str _, _, h | .arr _, _, h => by
    obtain rfl := Except.error.inj h
    exact .notObject fun _ => nofun

theorem fails_of_readEntries : ∀ {rest entries : List (String × Value)} {e : Error},
    readEntries rest = .error e → rest ⊆ entries → FilterFails (.obj entries) e
  | [], _, _, h, _ => by cases h
  | (key, v) :: rest, entries, e, h, hsub => by
    obtain ⟨hmem, hrest⟩ := List.cons_subset.mp hsub
    rw [readEntries_cons] at h
    rcases Outcome.bind_eq_error.mp h with h | ⟨here, -, h⟩
    · unfold readEntry at h
      split at h
      · next hkey => exact fails_of_readChildren (Outcome.map_eq_error.mp h) hmem (.inl hkey)
      split at h
      · next hkey => exact fails_of_readChildren (Outcome.map_eq_error.mp h) hmem (.inr hkey)
      next hand hor =>
      split at h
      · next hkey => exact .negated (hkey ▸ hmem) (fails_of_readFilter (Outcome.map_eq_error.mp h))
      next hnot =>
      exact fails_of_readComparisons h hmem (not_or.mpr ⟨hand, hor⟩) hnot
    · exact fails_of_readEntries (Outcome.bind_pure_eq_error.mp h) hrest

theorem fails_of_readChildren : ∀ {key : String} {v : Value} {entries : List (String × Value)}
    {e : Error}, readChildren key v = .error e → (key, v) ∈ entries → IsConnective key →
    FilterFails (.obj entries) e
  | _, .arr items, _, _, h, hmem, hkey => by
    obtain ⟨v, hv, he⟩ := fails_of_readFilters h
    exact .child hmem hkey hv he
  | _, .null, _, _, h, hmem, hkey | _, .bool _, _, _, h, hmem, hkey
  | _, .num _, _, _, h, hmem, hkey | _, .str _, _, _, h, hmem, hkey
  | _, .obj _, _, _, h, hmem, hkey => by
    obtain rfl := Except.error.inj h
    exact .notList hmem hkey fun _ => nofun

theorem fails_of_readFilters : ∀ {filters : List Value} {e : Error},
    readFilters filters = .error e → ∃ v ∈ filters, FilterFails v e
  | [], _, h => by cases h
  | v :: rest, e, h => by
    rcases Outcome.bind_eq_error.mp h with h | ⟨c, -, h⟩
    · exact ⟨v, List.mem_cons_self, fails_of_readFilter h⟩
    · obtain ⟨v', hv', he⟩ := fails_of_readFilters (Outcome.bind_pure_eq_error.mp h)
      exact ⟨v', List.mem_cons_of_mem v hv', he⟩

end

/-! ## A reason excludes reading -/

theorem readEntry_of_readEntries {cs : List Condition} (h : readEntries entries = .ok cs) :
    ∀ m ∈ entries, ∃ here, readEntry m.1 m.2 = .ok here := by
  induction entries generalizing cs with
  | nil => exact nofun
  | cons m rest ih =>
    rw [readEntries_cons] at h
    obtain ⟨here, hhere, h⟩ := Outcome.bind_eq_ok.mp h
    obtain ⟨others, hothers, -⟩ := Outcome.bind_eq_ok.mp h
    exact List.forall_mem_cons.mpr ⟨⟨here, hhere⟩, ih hothers⟩

theorem readFilter_of_readFilters {filters : List Value} {cs : List Condition}
    (h : readFilters filters = .ok cs) : ∀ v ∈ filters, ∃ c, readFilter v = .ok c := by
  induction filters generalizing cs with
  | nil => exact nofun
  | cons v rest ih =>
    obtain ⟨c, hc, h⟩ := Outcome.bind_eq_ok.mp h
    obtain ⟨others, hothers, -⟩ := Outcome.bind_eq_ok.mp h
    exact List.forall_mem_cons.mpr ⟨⟨c, hc⟩, ih hothers⟩

/-- What a connective joins is read. -/
theorem readChildren_of_readEntry {cs : List Condition} (hkey : IsConnective key)
    (h : readEntry key v = .ok cs) : ∃ children, readChildren key v = .ok children := by
  unfold readEntry at h
  rcases hkey with rfl | rfl
  · rw [if_pos rfl] at h
    obtain ⟨children, hchildren, -⟩ := Outcome.map_eq_ok.mp h
    exact ⟨children, hchildren⟩
  · rw [if_neg (by decide), if_pos rfl] at h
    obtain ⟨children, hchildren, -⟩ := Outcome.map_eq_ok.mp h
    exact ⟨children, hchildren⟩

theorem readFilter_ne_ok (h : FilterFails v e) : ∀ c, readFilter v ≠ .ok c := by
  have hentry {entries : List (String × Value)} {c : Option Condition}
      (hc : readFilter (.obj entries) = .ok c) :
      ∀ m ∈ entries, ∃ here, readEntry m.1 m.2 = .ok here := by
    obtain ⟨cs, hcs, -⟩ := Outcome.bind_eq_ok.mp hc
    exact readEntry_of_readEntries hcs
  induction h with
  | @notObject v hv =>
    intro c hc
    cases v with
    | obj entries => exact hv entries rfl
    | _ => cases hc
  | @notList entries key v hmem hkey hv =>
    intro c hc
    obtain ⟨here, hhere⟩ := hentry hc _ hmem
    obtain ⟨children, hchildren⟩ := readChildren_of_readEntry hkey hhere
    cases v with
    | arr items => exact hv items rfl
    | _ => cases hchildren
  | child hmem hkey hv _ ih =>
    intro c hc
    obtain ⟨here, hhere⟩ := hentry hc _ hmem
    obtain ⟨children, hchildren⟩ := readChildren_of_readEntry hkey hhere
    obtain ⟨c', hc'⟩ := readFilter_of_readFilters hchildren _ hv
    exact ih c' hc'
  | negated hmem _ ih =>
    intro c hc
    obtain ⟨here, hhere⟩ := hentry hc _ hmem
    dsimp only [readEntry] at hhere
    rw [if_neg (by decide), if_neg (by decide), if_pos rfl] at hhere
    obtain ⟨c', hc', -⟩ := Outcome.map_eq_ok.mp hhere
    exact ih c' hc'
  | operator hmem hpath hnot hany hkey hunknown =>
    intro c hc
    obtain ⟨here, hhere⟩ := hentry hc _ hmem
    obtain ⟨hand, hor⟩ := not_or.mp hpath
    unfold readEntry at hhere
    rw [if_neg hand, if_neg hor, if_neg hnot, readComparisons,
      if_pos (List.any_eq_true.mpr hany)] at hhere
    obtain ⟨m, hm, rfl⟩ := List.mem_map.mp hkey
    obtain ⟨comparison, -, hread⟩ := exists_right_of_mem (Outcome.mapM_eq_ok.mp hhere) hm
    obtain ⟨o, ho, -⟩ := Outcome.bind_eq_ok.mp hread
    exact hunknown o (Filter.ofKey_eq_ok.mp ho)

/-- A filter is read just when there is no reason to refuse it. -/
theorem reads_filter (v : Value) :
    (readFilter v).Reads (fun c => (∀ e, ¬FilterFails v e) ∧ readFilter v = .ok c)
      (FilterFails v) := by
  refine ⟨fun c => (and_iff_right_of_imp fun hc e he => ?_).symm, fun e => fails_of_readFilter⟩
  exact readFilter_ne_ok he c hc

end DocGraph.Spec
