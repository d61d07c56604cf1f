import DocGraph.Proofs.Compile.Columns
import DocGraph.Query.Reader

/-!
# Queries that have been read

The dictionaries of a query that has been read are in order, as the objects are that
they are read from (`isOrdered_of_ofValue`).
-/

namespace DocGraph

open Json (Value)

/-! ## Values in canonical form -/

namespace Json.Value

/-- Whether a value is in canonical form, as the values are that are read from a text. -/
def IsCanonical (v : Value) : Prop :=
  ∃ w : Value, w.canonical = v

theorem isCanonical_of_mem_canonicalMembers {members : List (String × Value)} {e : String × Value}
    (h : e ∈ canonicalMembers members) : e.2.IsCanonical := by
  induction members with
  | nil => cases h
  | cons m rest ih =>
    obtain ⟨k, v⟩ := m
    rw [canonicalMembers] at h
    rcases List.mem_cons.mp h with rfl | h
    · exact ⟨v, rfl⟩
    · exact ih h

/-- The members of objects in canonical form are in order, and in canonical form. -/
theorem IsCanonical.members {members : Dict Value} (h : (Value.obj members).IsCanonical) :
    Dict.IsSorted members ∧ ∀ e ∈ members, e.2.IsCanonical := by
  obtain ⟨w, hw⟩ := h
  cases w with
  | obj entries =>
    rw [canonical, Value.obj.injEq] at hw
    subst hw
    exact ⟨Dict.isSorted_ofEntries _, fun e he =>
      isCanonical_of_mem_canonicalMembers (Dict.mem_of_mem_ofEntries he)⟩
  | _ => simp [canonical] at hw

end Json.Value

namespace Spec

variable {v : Value} {q q' : Spec} {key : String}

/-- What is read from each member of an object in turn is in order. -/
theorem isSorted_of_objectNamed {α : Type} {name : String}
    {read : String × Value → Outcome (String × α)} {d : Dict α} (hv : v.IsCanonical)
    (h : (do (← objectNamed name v).mapM read) = .ok d)
    (hread : ∀ m e, read m = .ok e → e.1 = m.1) : Dict.IsSorted d := by
  obtain ⟨members, hmembers, h⟩ := Outcome.bind_eq_ok.mp h
  cases v with
  | obj entries =>
    obtain rfl := Except.ok.inj hmembers
    rw [Dict.IsSorted, Dict.keys_of_mapM h hread]
    exact hv.members.1
  | _ => cases hmembers

theorem isSorted_of_readFields {fields : Dict Selector} (hv : v.IsCanonical)
    (h : readFields v = .ok fields) : Dict.IsSorted fields := by
  refine isSorted_of_objectNamed hv h fun m e he => ?_
  obtain ⟨selector, -, he⟩ := Outcome.bind_eq_ok.mp he
  rw [← Except.ok.inj he]

theorem isSorted_of_readAggregates {aggregates : Dict Aggregation} (hv : v.IsCanonical)
    (h : readAggregates v = .ok aggregates) : Dict.IsSorted aggregates := by
  refine isSorted_of_objectNamed hv h fun m e he => ?_
  obtain ⟨a, -, he⟩ := Outcome.bind_eq_ok.mp he
  rw [← Except.ok.inj he]

/-- Reading one more key keeps the dictionaries in order. -/
theorem isOrdered_of_readKey (hv : v.IsCanonical) (h : readKey q key v = .ok q')
    (hq : q.IsOrdered) : q'.IsOrdered := by
  unfold readKey at h
  split at h
  · obtain ⟨fields, hfields, h⟩ := Outcome.bind_eq_ok.mp h
    exact Except.ok.inj h ▸ ⟨isSorted_of_readFields hv hfields, hq.aggregates⟩
  · obtain ⟨fields, hfields, h⟩ := Outcome.bind_eq_ok.mp h
    exact Except.ok.inj h ▸ ⟨isSorted_of_readFields hv hfields, hq.aggregates⟩
  · obtain ⟨aggregates, haggregates, h⟩ := Outcome.bind_eq_ok.mp h
    exact Except.ok.inj h ▸ ⟨hq.fields, isSorted_of_readAggregates hv haggregates⟩
  · obtain ⟨aggregates, haggregates, h⟩ := Outcome.bind_eq_ok.mp h
    exact Except.ok.inj h ▸ ⟨hq.fields, isSorted_of_readAggregates hv haggregates⟩
  · obtain ⟨filter, -, h⟩ := Outcome.bind_eq_ok.mp h
    exact Except.ok.inj h ▸ ⟨hq.fields, hq.aggregates⟩
  · obtain ⟨sort, -, h⟩ := Outcome.bind_eq_ok.mp h
    exact Except.ok.inj h ▸ ⟨hq.fields, hq.aggregates⟩
  · obtain ⟨limit, -, h⟩ := Outcome.bind_eq_ok.mp h
    exact Except.ok.inj h ▸ ⟨hq.fields, hq.aggregates⟩
  · obtain ⟨offset, -, h⟩ := Outcome.bind_eq_ok.mp h
    exact Except.ok.inj h ▸ ⟨hq.fields, hq.aggregates⟩
  · exact Except.ok.inj h ▸ ⟨hq.fields, hq.aggregates⟩
  · cases h

/-- A query is in order that is read from a value in canonical form. -/
theorem isOrdered_of_ofValue (hv : v.IsCanonical) (h : ofValue v = .ok q) : q.IsOrdered := by
  cases v with
  | obj members =>
    obtain ⟨q', hq', h⟩ := Outcome.bind_eq_ok.mp h
    obtain ⟨⟨⟩, -, h⟩ := Outcome.bind_eq_ok.mp h
    obtain rfl := Except.ok.inj h
    refine Outcome.of_foldlM_eq_ok hq' ⟨List.Pairwise.nil, List.Pairwise.nil⟩ ?_
    intro m hm q q' hread hq
    exact isOrdered_of_readKey (hv.members.2 m hm) hread hq
  | _ => cases h

end Spec

end DocGraph
