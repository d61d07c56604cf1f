import DocGraph.Proofs.Compile.Columns
import DocGraph.Proofs.Query.FilterRefused
import DocGraph.Proofs.Query.Parts

/-!
# What is read of a query

A query is an object whose keys are those of a query and whose values may be at them (`IsPart`).
Reading one key puts what is at it into the query and leaves its other parts alone
(`Puts.after`), so what is read of the whole is told, for each part of it, by the last member that
gives it (`ReadFrom`). A query with a fault is refused, with an error that names it (`QueryFails`).
`reads_query` says both.

What another key overrules is checked but not kept, and what is not looked at is not checked: there
are queries that are accepted though some part of them is ignored (`ofValue_ignores`).
-/

namespace DocGraph.Spec

open Json (Value)
open Outcome (Reads Succeeds reads_error reads_mapM reads_ok)

variable {q q' : Spec} {key : String} {v : Value} {e : Error} {members : List (String × Value)}

/-! ## Orders and ranges -/

/-- A list of names as the order that is read of it. -/
def SortFrom (v : Value) (sort : List SortDirective) : Prop :=
  ∃ texts : List String, v = .arr (texts.map .str) ∧ sort = texts.map .ofText

/-- Why an order is refused. -/
def SortFails (v : Value) (e : Error) : Prop :=
  (∀ texts : List String, v ≠ .arr (texts.map .str)) ∧ e = .invalidSortInput v.text

theorem mapM_str?_eq_some {items : List Value} {texts : List String} :
    items.mapM Value.str? = some texts ↔ items = texts.map .str := by
  induction items generalizing texts with
  | nil => simp [eq_comm]
  | cons v rest ih =>
    rw [List.mapM_cons]
    cases v with
    | str text =>
      cases texts with
      | nil => simp [Value.str?, Option.bind_eq_some_iff]
      | cons t ts => simp [Value.str?, Option.bind_eq_some_iff, ih, and_comm]
    | _ => cases texts <;> simp [Value.str?]

theorem reads_sort (v : Value) : (readSort v).Reads (SortFrom v) (SortFails v) := by
  have htexts (texts : List String) :
      v.arr?.bind (·.mapM Value.str?) = some texts ↔ v = .arr (texts.map .str) := by
    cases v <;> simp [Value.arr?, mapM_str?_eq_some]
  unfold readSort
  split
  · next texts h =>
    refine reads_ok fun sort => ⟨?_, ?_⟩
    · rintro ⟨texts', hv, rfl⟩
      rw [Option.some.inj (h.symm.trans ((htexts texts').mpr hv))]
    · rintro rfl
      exact ⟨texts, (htexts texts).mp h, rfl⟩
  · next h =>
    have hno (texts : List String) : v ≠ .arr (texts.map .str) := fun hv => by
      rw [(htexts texts).mpr hv] at h
      cases h
    exact reads_error (fun sort ⟨texts, hv, _⟩ => hno texts hv) ⟨hno, rfl⟩

/-- What is read of a number of documents, which `null` leaves open. -/
inductive CountFrom : Value → Option Nat → Prop
  | null : CountFrom .null none
  | number {n : Json.Number} {count : Nat} : n.unsigned? = some count →
    CountFrom (.num n) (some count)

/-- Why a number of documents is refused. -/
def CountFails (key : String) (v : Value) (e : Error) : Prop :=
  (∀ count, ¬CountFrom v count) ∧ e = .invalidQuery (.countExpected key)

theorem reads_count (key : String) (v : Value) :
    (readCount key v).Reads (CountFrom v) (CountFails key v) := by
  have hfail (hno : ∀ count, ¬CountFrom v count) :
      Reads (fail (.countExpected key)) (CountFrom v) (CountFails key v) :=
    reads_error hno ⟨hno, rfl⟩
  cases v with
  | null => exact reads_ok fun count => ⟨by rintro ⟨⟩; rfl, by rintro rfl; exact .null⟩
  | num n =>
    unfold readCount
    dsimp only
    cases hn : n.unsigned? with
    | none =>
      refine hfail fun count hcount => ?_
      cases hcount with
      | number h => rw [hn] at h; cases h
    | some k =>
      refine reads_ok fun count => ⟨fun hcount => ?_, ?_⟩
      · cases hcount with
        | number h => rw [← hn, h]
      · rintro rfl
        exact .number hn
  | _ => exact hfail fun count => nofun

/-! ## Keys -/

/-- The keys of the fields. -/
def fieldKeys : List String :=
  ["field", "fields"]

/-- The keys of the aggregates. -/
def aggregateKeys : List String :=
  ["aggregate", "aggregates"]

/-- Whether a value may be at a key of a query. -/
inductive IsPart : String → Value → Prop
  | fields {key : String} {v : Value} {fields : Dict Selector} : key ∈ fieldKeys →
    EntriesFrom SelectorFrom v fields → IsPart key v
  | aggregates {key : String} {v : Value} {aggregates : Dict Aggregation} :
    key ∈ aggregateKeys → EntriesFrom AggregationFrom v aggregates → IsPart key v
  | filter {v : Value} : (∀ e, ¬FilterFails v e) → IsPart "filter" v
  | sort {v : Value} {sort : List SortDirective} : SortFrom v sort → IsPart "sort" v
  | limit {v : Value} {count : Option Nat} : CountFrom v count → IsPart "limit" v
  | offset {v : Value} {count : Option Nat} : CountFrom v count → IsPart "offset" v
  | distinct {v : Value} : IsPart "distinct" v

/-- Why the value at a key of a query is refused. -/
inductive PartFails : String → Value → Error → Prop
  | fields {key : String} {v : Value} {e : Error} : key ∈ fieldKeys →
    EntriesFail "field" SelectorFails v e → PartFails key v e
  | aggregates {key : String} {v : Value} {e : Error} : key ∈ aggregateKeys →
    EntriesFail "aggregate" AggregationFails v e → PartFails key v e
  | filter {v : Value} {e : Error} : FilterFails v e → PartFails "filter" v e
  | sort {v : Value} {e : Error} : SortFails v e → PartFails "sort" v e
  | limit {v : Value} {e : Error} : CountFails "limit" v e → PartFails "limit" v e
  | offset {v : Value} {e : Error} : CountFails "offset" v e → PartFails "offset" v e
  | unknown {key : String} {v : Value} :
    key ∉ fieldKeys ++ aggregateKeys ++ ["filter", "sort", "limit", "offset", "distinct"] →
      PartFails key v (.invalidQuery (.unknownKey key))

/-- The filter of a query, which is read if there is no reason to refuse it. -/
def FilterFrom (v : Value) (filter : Option Condition) : Prop :=
  (∀ e, ¬FilterFails v e) ∧ readFilter v = .ok filter

/-- Whether the documents are to be distinct, as they are if `true` is given. Anything else
counts as `false`. -/
def DistinctFrom (v : Value) (distinct : Bool) : Prop :=
  distinct = true ↔ v = .bool true

theorem distinctFrom (v : Value) : DistinctFrom v (v.bool?.getD false) := by
  cases v <;> simp [DistinctFrom, Value.bool?]

theorem DistinctFrom.unique {a b : Bool} (ha : DistinctFrom v a) (hb : DistinctFrom v b) : a = b :=
  Bool.eq_iff_iff.mpr (ha.trans hb.symm)

/-- A query with what is at one key put into it. -/
inductive Puts (q : Spec) : String → Value → Spec → Prop
  | fields {key : String} {v : Value} {fields : Dict Selector} : key ∈ fieldKeys →
    EntriesFrom SelectorFrom v fields → Puts q key v { q with fields := fields }
  | aggregates {key : String} {v : Value} {aggregates : Dict Aggregation} :
    key ∈ aggregateKeys → EntriesFrom AggregationFrom v aggregates →
      Puts q key v { q with aggregates := aggregates }
  | filter {v : Value} {filter : Option Condition} : FilterFrom v filter →
    Puts q "filter" v { q with filter := filter }
  | sort {v : Value} {sort : List SortDirective} : SortFrom v sort →
    Puts q "sort" v { q with sort := sort }
  | limit {v : Value} {count : Option Nat} : CountFrom v count →
    Puts q "limit" v { q with limit := count }
  | offset {v : Value} {count : Option Nat} : CountFrom v count →
    Puts q "offset" v { q with offset := count }
  | distinct {v : Value} {distinct : Bool} : DistinctFrom v distinct →
    Puts q "distinct" v { q with distinct := distinct }

theorem reads_fields (v : Value) :
    (readFields v).Reads (EntriesFrom SelectorFrom v) (EntriesFail "field" SelectorFails v) :=
  reads_entries reads_selector "field" v

theorem reads_aggregates (v : Value) :
    (readAggregates v).Reads (EntriesFrom AggregationFrom v)
      (EntriesFail "aggregate" AggregationFails v) :=
  reads_entries reads_aggregation "aggregate" v

theorem puts_of_readKey (h : readKey q key v = .ok q') : Puts q key v q' := by
  unfold readKey at h
  split at h
  case h_10 => cases h
  case h_9 =>
    obtain rfl := Except.ok.inj h
    exact .distinct (distinctFrom v)
  all_goals
    obtain ⟨part, hpart, h⟩ := Outcome.bind_eq_ok.mp h
    obtain rfl := Except.ok.inj h
  case h_1 => exact .fields (by decide) (((reads_fields v).ok_iff part).mp hpart)
  case h_2 => exact .fields (by decide) (((reads_fields v).ok_iff part).mp hpart)
  case h_3 => exact .aggregates (by decide) (((reads_aggregates v).ok_iff part).mp hpart)
  case h_4 => exact .aggregates (by decide) (((reads_aggregates v).ok_iff part).mp hpart)
  case h_5 => exact .filter (((reads_filter v).ok_iff part).mp hpart)
  case h_6 => exact .sort (((reads_sort v).ok_iff part).mp hpart)
  case h_7 => exact .limit (((reads_count _ v).ok_iff part).mp hpart)
  case h_8 => exact .offset (((reads_count _ v).ok_iff part).mp hpart)

theorem readKey_of_puts (h : Puts q key v q') : readKey q key v = .ok q' := by
  cases h with
  | fields hkey h =>
    have hread := ((reads_fields v).ok_iff _).mpr h
    rcases List.mem_pair.mp hkey with rfl | rfl <;> simp only [readKey, hread] <;> rfl
  | aggregates hkey h =>
    have hread := ((reads_aggregates v).ok_iff _).mpr h
    rcases List.mem_pair.mp hkey with rfl | rfl <;> simp only [readKey, hread] <;> rfl
  | filter h => simp only [readKey, h.2]; rfl
  | sort h => simp only [readKey, ((reads_sort v).ok_iff _).mpr h]; rfl
  | limit h => simp only [readKey, ((reads_count _ v).ok_iff _).mpr h]; rfl
  | offset h => simp only [readKey, ((reads_count _ v).ok_iff _).mpr h]; rfl
  | distinct h => simp only [readKey, (distinctFrom v).unique h]

theorem partFails_of_readKey (h : readKey q key v = .error e) : PartFails key v e := by
  unfold readKey at h
  split at h
  case h_10 =>
    obtain rfl := Except.error.inj h
    exact .unknown (by simp_all [fieldKeys, aggregateKeys])
  case h_9 => cases h
  all_goals replace h := Outcome.bind_pure_eq_error.mp h
  case h_1 => exact .fields (by decide) ((reads_fields v).error e h)
  case h_2 => exact .fields (by decide) ((reads_fields v).error e h)
  case h_3 => exact .aggregates (by decide) ((reads_aggregates v).error e h)
  case h_4 => exact .aggregates (by decide) ((reads_aggregates v).error e h)
  case h_5 => exact .filter ((reads_filter v).error e h)
  case h_6 => exact .sort ((reads_sort v).error e h)
  case h_7 => exact .limit ((reads_count _ v).error e h)
  case h_8 => exact .offset ((reads_count _ v).error e h)

/-- A query can be read on just when the value at the key may be there. -/
theorem succeeds_readKey : Succeeds (readKey q key v) ↔ IsPart key v := by
  constructor
  · rintro ⟨q', hread⟩
    cases puts_of_readKey hread with
    | fields hkey h => exact .fields hkey h
    | aggregates hkey h => exact .aggregates hkey h
    | filter h => exact .filter h.1
    | sort h => exact .sort h
    | limit h => exact .limit h
    | offset h => exact .offset h
    | distinct => exact .distinct
  · intro h
    cases h with
    | fields hkey h => exact ⟨_, readKey_of_puts (.fields hkey h)⟩
    | aggregates hkey h => exact ⟨_, readKey_of_puts (.aggregates hkey h)⟩
    | filter h =>
      cases hread : readFilter v with
      | ok filter => exact ⟨_, readKey_of_puts (.filter ⟨h, hread⟩)⟩
      | error e => exact absurd (fails_of_readFilter hread) (h e)
    | sort h => exact ⟨_, readKey_of_puts (.sort h)⟩
    | limit h => exact ⟨_, readKey_of_puts (.limit h)⟩
    | offset h => exact ⟨_, readKey_of_puts (.offset h)⟩
    | distinct => exact ⟨_, readKey_of_puts (.distinct (distinctFrom v))⟩

/-! ## Whole queries -/

section Last

variable {α : Type} {keys : List String} {R : Value → α → Prop} {default : α}

/-- What a part of a query is after one more key. -/
def After (keys : List String) (R : Value → α → Prop) (key : String) (v : Value) (old new : α) :
    Prop :=
  if key ∈ keys then R v new else new = old

/-- Whether something is read of the last member that has one of some keys, or is the default if no
member has. -/
def Last (keys : List String) (R : Value → α → Prop) (default : α)
    (members : List (String × Value)) (a : α) : Prop :=
  match (members.filter (·.1 ∈ keys)).getLast? with
  | none => a = default
  | some m => R m.2 a

theorem Last.unique {a b : α} (hR : ∀ v a b, R v a → R v b → a = b)
    (ha : Last keys R default members a) (hb : Last keys R default members b) : a = b := by
  unfold Last at ha hb
  cases hlast : (members.filter (·.1 ∈ keys)).getLast? with
  | none =>
    rw [hlast] at ha hb
    exact ha.trans hb.symm
  | some m =>
    rw [hlast] at ha hb
    exact hR m.2 a b ha hb

theorem Last.cons {m : String × Value} {old new a : α} (hm : After keys R m.1 m.2 old new)
    (h : Last keys R new members a) : Last keys R old (m :: members) a := by
  unfold Last at h ⊢
  unfold After at hm
  by_cases hkey : m.1 ∈ keys
  · rw [if_pos hkey] at hm
    rw [List.filter_cons_of_pos (by simpa using hkey), List.getLast?_cons]
    cases hlast : (members.filter (·.1 ∈ keys)).getLast? with
    | none =>
      rw [hlast] at h
      exact h ▸ hm
    | some m' =>
      rw [hlast] at h
      exact h
  · rw [if_neg hkey] at hm
    rw [List.filter_cons_of_neg (by simpa using hkey)]
    exact hm ▸ h

/-- What every key keeps of a part of a query, all keys do. -/
theorem last_of_foldlM (get : Spec → α)
    (hafter : ∀ {q q' key v}, Puts q key v q' → After keys R key v (get q) (get q'))
    (h : members.foldlM (fun q (key, v) => readKey q key v) q = .ok q') :
    Last keys R (get q) members (get q') := by
  induction members generalizing q with
  | nil => rw [← Except.ok.inj h]; rfl
  | cons m rest ih =>
    obtain ⟨q₁, hm, h⟩ := Outcome.bind_eq_ok.mp h
    exact .cons (hafter (puts_of_readKey hm)) (ih h)

end Last

/-- What is read of the members of a query: every part of it of the last member that may give
it. The others are checked but not kept. -/
structure ReadFrom (members : List (String × Value)) (q : Spec) : Prop where
  parts : ∀ m ∈ members, IsPart m.1 m.2
  fields : Last fieldKeys (EntriesFrom SelectorFrom) [] members q.fields
  aggregates : Last aggregateKeys (EntriesFrom AggregationFrom) [] members q.aggregates
  filter : Last ["filter"] FilterFrom none members q.filter
  sort : Last ["sort"] SortFrom [] members q.sort
  limit : Last ["limit"] CountFrom none members q.limit
  offset : Last ["offset"] CountFrom none members q.offset
  distinct : Last ["distinct"] DistinctFrom false members q.distinct

/-- What one key does to the parts of a query. -/
structure AfterKey (q : Spec) (key : String) (v : Value) (q' : Spec) : Prop where
  fields : After fieldKeys (EntriesFrom SelectorFrom) key v q.fields q'.fields
  aggregates : After aggregateKeys (EntriesFrom AggregationFrom) key v q.aggregates q'.aggregates
  filter : After ["filter"] FilterFrom key v q.filter q'.filter
  sort : After ["sort"] SortFrom key v q.sort q'.sort
  limit : After ["limit"] CountFrom key v q.limit q'.limit
  offset : After ["offset"] CountFrom key v q.offset q'.offset
  distinct : After ["distinct"] DistinctFrom key v q.distinct q'.distinct

theorem Puts.after (h : Puts q key v q') : AfterKey q key v q' := by
  cases h with
  | fields hkey h | aggregates hkey h =>
    rcases List.mem_pair.mp hkey with rfl | rfl <;> constructor <;>
      simp [After, fieldKeys, aggregateKeys, h]
  | filter h | sort h | limit h | offset h | distinct h =>
    constructor <;> simp [After, fieldKeys, aggregateKeys, h]

theorem isPart_of_foldlM (h : members.foldlM (fun q (key, v) => readKey q key v) q = .ok q') :
    ∀ m ∈ members, IsPart m.1 m.2 :=
  (Outcome.succeeds_foldlM (P := fun m : String × Value => IsPart m.1 m.2)
    (fun _ _ _ => succeeds_readKey) q).mp ⟨q', h⟩

theorem readFrom_of_foldlM (h : members.foldlM (fun q (key, v) => readKey q key v) {} = .ok q) :
    ReadFrom members q where
  parts := isPart_of_foldlM h
  fields := last_of_foldlM fields (fun h => h.after.fields) h
  aggregates := last_of_foldlM aggregates (fun h => h.after.aggregates) h
  filter := last_of_foldlM filter (fun h => h.after.filter) h
  sort := last_of_foldlM sort (fun h => h.after.sort) h
  limit := last_of_foldlM limit (fun h => h.after.limit) h
  offset := last_of_foldlM offset (fun h => h.after.offset) h
  distinct := last_of_foldlM distinct (fun h => h.after.distinct) h

theorem ReadFrom.unique (h : ReadFrom members q) (h' : ReadFrom members q') : q = q' := by
  have hfields := h.fields.unique (fun v _ _ => (reads_fields v).unique) h'.fields
  have haggregates := h.aggregates.unique (fun v _ _ => (reads_aggregates v).unique) h'.aggregates
  have hfilter := h.filter.unique (fun v _ _ => (reads_filter v).unique) h'.filter
  have hsort := h.sort.unique (fun v _ _ => (reads_sort v).unique) h'.sort
  have hlimit := h.limit.unique (fun v _ _ => (reads_count "limit" v).unique) h'.limit
  have hoffset := h.offset.unique (fun v _ _ => (reads_count "offset" v).unique) h'.offset
  have hdistinct := h.distinct.unique (fun v _ _ => DistinctFrom.unique (v := v))
    h'.distinct
  cases q
  cases q'
  simp_all

/-- The members of a query are read one after the other. -/
theorem reads_members_of_query (members : List (String × Value)) :
    Reads (members.foldlM (fun q (key, v) => readKey q key v) {}) (ReadFrom members)
      (fun e => ∃ m ∈ members, PartFails m.1 m.2 e) := by
  constructor
  · intro q
    refine ⟨readFrom_of_foldlM, fun h => ?_⟩
    obtain ⟨q', hq'⟩ := (Outcome.succeeds_foldlM (P := fun m : String × Value => IsPart m.1 m.2)
      (fun _ _ _ => succeeds_readKey) {}).mpr h.parts
    rw [hq', (readFrom_of_foldlM hq').unique h]
  · intro e h
    obtain ⟨m, hm, q', h⟩ := Outcome.exists_of_foldlM_eq_error h
    exact ⟨m, hm, partFails_of_readKey h⟩

/-! ## Names -/

/-- Whether all names of a query are dotted names of fields, and none is that of a field and of an
aggregate. -/
structure NamesAreValid (q : Spec) : Prop where
  isFieldName : ∀ name ∈ q.names, isFieldName name = true
  apart : ∀ name ∈ Dict.keys q.fields, name ∉ Dict.keys q.aggregates

/-- Why the names of a query are refused. -/
inductive NamesFail (q : Spec) : Error → Prop
  | invalid {name : String} : name ∈ q.names → isFieldName name = false →
    NamesFail q (.invalidQuery (.invalidName name))
  | both {name : String} : name ∈ Dict.keys q.fields → name ∈ Dict.keys q.aggregates →
    NamesFail q (.invalidQuery (.fieldAndAggregate name))

theorem reads_names (q : Spec) :
    q.validateNames.Reads (fun _ => q.NamesAreValid) (NamesFail q) := by
  constructor
  · rintro ⟨⟩
    refine ⟨fun h => ⟨isFieldName_of_validateNames h,
      fun name => notMem_aggregates_of_validateNames h⟩, fun h => ?_⟩
    have hinvalid : q.names.find? (!isFieldName ·) = none :=
      List.find?_eq_none.mpr fun name hname => by rw [h.isFieldName name hname]; decide
    have hboth : (Dict.keys q.fields).find? (Dict.contains · q.aggregates) = none :=
      List.find?_eq_none.mpr fun name hname hcontains =>
        h.apart name hname (Dict.contains_iff.mp hcontains)
    simp only [validateNames, hinvalid, hboth]
  · intro e h
    unfold validateNames at h
    split at h
    · next name hname =>
      obtain rfl := Except.error.inj h
      exact .invalid (List.mem_of_find?_eq_some hname) (by simpa using List.find?_some hname)
    split at h
    · next name hname =>
      obtain rfl := Except.error.inj h
      exact .both (List.mem_of_find?_eq_some hname)
        (Dict.contains_iff.mp (by simpa using List.find?_some hname))
    · cases h

/-! ## Queries -/

/-- Why a query is refused. -/
inductive QueryFails : Value → Error → Prop
  | notObject {v : Value} : (∀ members, v ≠ .obj members) →
    QueryFails v (.invalidQuery .notAnObject)
  | part {members : List (String × Value)} {m : String × Value} {e : Error} : m ∈ members →
    PartFails m.1 m.2 e → QueryFails (.obj members) e
  | names {members : List (String × Value)} {q : Spec} {e : Error} : ReadFrom members q →
    NamesFail q e → QueryFails (.obj members) e

/-- Whether a dictionary has all names that the only member with one of some keys gives. -/
def KeepsNames {α : Type} (keys : List String) (members : List (String × Value)) (d : Dict α) :
    Prop :=
  ∀ m ∈ members, m.1 ∈ keys → (∀ m' ∈ members, m'.1 ∈ keys → m' = m) →
    ∃ entries, m.2 = .obj entries ∧ Dict.keys d = Dict.keys entries

theorem keepsNames_of_last {α : Type} {keys : List String} {R : Value → α → Prop} {d : Dict α}
    (h : Last keys (EntriesFrom R) [] members d) : KeepsNames keys members d := by
  intro m hm hkey honly
  have hmem : m ∈ members.filter (·.1 ∈ keys) := List.mem_filter.mpr ⟨hm, decide_eq_true hkey⟩
  unfold Last at h
  cases hlast : (members.filter (·.1 ∈ keys)).getLast? with
  | none =>
    rw [List.getLast?_eq_none_iff.mp hlast] at hmem
    cases hmem
  | some m' =>
    obtain ⟨hm', hkey'⟩ := List.mem_filter.mp (List.mem_of_getLast? hlast)
    obtain rfl := honly m' hm' (of_decide_eq_true hkey')
    rw [hlast] at h
    replace h : EntriesFrom R m'.2 d := h
    obtain ⟨entries, hentries, -⟩ := id h
    rw [hentries] at h
    exact ⟨entries, hentries, h.keys⟩

/-- A query is an object with the keys of a query and what may be at them. What is read of it
is told for each part by the last member that gives it, and all its names are names of fields and
different. A query that is refused has a fault, which its error names. No names are lost
but those of a member that another one comes after, with the other spelling of its key. -/
theorem reads_query (v : Value) :
    (ofValue v).Reads
        (fun q => ∃ members, v = .obj members ∧ ReadFrom members q ∧ q.NamesAreValid)
        (QueryFails v) ∧
      ∀ members q, v = .obj members → ofValue v = .ok q →
        KeepsNames fieldKeys members q.fields ∧ KeepsNames aggregateKeys members q.aggregates := by
  have hreads : (ofValue v).Reads
      (fun q => ∃ members, v = .obj members ∧ ReadFrom members q ∧ q.NamesAreValid)
      (QueryFails v) := by
    cases v with
    | obj members =>
      refine ((reads_members_of_query members).bind fun q hq =>
        (reads_names q).bind_pure (g := fun _ => q)).congr (fun q => ?_) ?_
      · constructor
        · rintro ⟨q, hq, -, hnames, rfl⟩
          exact ⟨members, rfl, hq, hnames⟩
        · rintro ⟨members', hmembers, hq, hnames⟩
          obtain rfl := Value.obj.inj hmembers
          exact ⟨q, hq, (), hnames, rfl⟩
      · rintro e (⟨m, hm, he⟩ | ⟨q, hq, he⟩)
        · exact .part hm he
        · exact .names hq he
    | _ => exact reads_error (by rintro q ⟨members, ⟨⟩, -⟩) (.notObject (by rintro _ ⟨⟩))
  refine ⟨hreads, ?_⟩
  rintro members q rfl h
  obtain ⟨members', hmembers, hq, -⟩ := (hreads.ok_iff q).mp h
  obtain rfl := Value.obj.inj hmembers
  exact ⟨keepsNames_of_last hq.fields, keepsNames_of_last hq.aggregates⟩

/-- A page of posts with their tags, the names of their authors and the texts of their comments, and
the number of all. -/
def ofPosts : List (String × Value) :=
  [("aggregate", .obj [("total", .obj [("$count", .bool true)])]),
    ("distinct", .bool true),
    ("field", .obj
      [("comments", .obj
          [("$fields", .obj [("text", .str "text")]), ("$property", .str "comments")]),
        ("tags", .arr [.str "tags"]), ("title", .str "title"), ("writer", .str "author.?name")]),
    ("filter", .obj [("title", .str "post 0")]),
    ("limit", .num (.integer ⟨10, by decide, by decide⟩)),
    ("sort", .arr [.str "-total", .str "title"])]

theorem reads_query_ofPosts :
    ∃ q, ofValue (.obj ofPosts) = .ok q ∧
      Dict.keys q.fields = ["comments", "tags", "title", "writer"] ∧
      Dict.keys q.aggregates = ["total"] ∧ q.limit = some 10 ∧ q.offset = none ∧
      (∃ members, Value.obj ofPosts = .obj members ∧ ReadFrom members q ∧ q.NamesAreValid) ∧
      KeepsNames fieldKeys ofPosts q.fields :=
  have hread := reads_query (.obj ofPosts)
  ⟨_, rfl, rfl, rfl, rfl, rfl, (hread.1.ok_iff _).mp rfl, (hread.2 _ _ rfl rfl).1⟩

/-- Queries are accepted that are read in part only: of the names of fields under both spellings of
the key only those of the later one are kept, a text in place of a truth value counts as `false`,
and of two aggregators the second one is left out. -/
theorem ofValue_ignores :
    (∃ q, ofValue (.obj
        [("field", .obj [("a", .str "name")]), ("fields", .obj [("b", .str "name")])]) = .ok q ∧
      q.names = ["b"]) ∧
    (∃ q, ofValue (.obj [("distinct", .str "yes")]) = .ok q ∧ q.distinct = false) ∧
    ∃ q a, ofValue (.obj [("aggregate", .obj
        [("years", .obj [("$avg", .str "age"), ("$max", .str "born")])])]) = .ok q ∧
      q.aggregates = [("years", a)] ∧ a.aggregator = .avg ∧ a.property = some ⟨["age"]⟩ :=
  ⟨⟨_, rfl, rfl⟩, ⟨_, rfl, rfl⟩, _, _, rfl, rfl, rfl, rfl⟩

end DocGraph.Spec
