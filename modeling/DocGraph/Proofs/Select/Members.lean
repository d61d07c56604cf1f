import DocGraph.Proofs.Select.Patterns
import DocGraph.Proofs.Select.Variables
import DocGraph.Proofs.Sparql.Groups
import Mathlib.Data.Finset.Card

/-!
# Groups and their documents

A grouped selection matches its documents once for the keys and once more for every column
that is reduced. The members of the groups are the pairs of a key and a document
(`Selection.members`). If the columns share the keys and nothing else
(`Selection.IsSeparated`), a reduction has one row for each key, with the value that its
own elements give for the documents of the key, each taken once
(`Selection.IsSeparated.eval_reduction`).
-/

namespace DocGraph

open Rdf (Dataset Term Variable)
open Sparql (Aggregate Context Expr Pattern Solution Solutions Store)
open Sparql.Solution (HasKey IsKey)
open Sparql.Solutions (extensions join leftJoin)

/-- The solution that has a document, and nothing else. -/
def Sparql.Solution.ofDocument (r : Term) : Solution :=
  Solution.empty.set rootVariable r

namespace Selection

open scoped Classical in
/-- The groups and their documents: the key and the document of every solution of the
document pattern, once each. -/
noncomputable def members (s : Selection) (store : Store) (data : Dataset) :
    Finset (Solution × Term) :=
  ((s.documents.eval { store := store, data := data }).filterMap fun μ =>
    (μ rootVariable).map fun r => (μ.restrict s.groupBy, r)).toFinset

open scoped Classical in
/-- The keys of the groups. -/
noncomputable def keys (s : Selection) (store : Store) (data : Dataset) : Finset Solution :=
  (s.members store data).image Prod.fst

/-- The solutions that have the key and the document of each member of a group. -/
noncomputable def memberSolutions (s : Selection) (store : Store) (data : Dataset) : Solutions :=
  (s.members store data).val.map fun m => m.1.merge (.ofDocument m.2)

open scoped Classical in
/-- The documents of a group. -/
noncomputable def documentsOf (s : Selection) (store : Store) (data : Dataset) (key : Solution) :
    Finset Term :=
  ((s.members store data).filter (·.1 = key)).image Prod.snd

end Selection

/-- The solutions of value elements that are compatible with some documents, for each of
these. -/
noncomputable def valueSolutions (c : Context) (values : List Element) (documents : Finset Term) :
    Solutions :=
  join (documents.val.map .ofDocument) ((groupPattern values).eval c)

/-- What a column reduces for some documents of a group. -/
noncomputable def Reduced.value (r : Reduced) (c : Context) (key : Solution)
    (documents : Finset Term) : Option Term :=
  r.aggregate.eval c r.result key (valueSolutions c r.values documents)

open scoped Classical in
/-- The value of a column in the group with a key and some documents, in the graph of the
documents. Without values of its own a column counts the documents; a packed one has its
distinct texts in the order that the store concatenates them in. -/
noncomputable def Column.value (c : Context) (key : Solution) (documents : Finset Term) :
    Column → Option Term
  | .plain v => key v
  | .aggregate _ _ none => some (.literal (.ofInt documents.card))
  | .aggregate v a (some values) => a.eval c v key (valueSolutions c values documents)
  | .packed _ raw encoded packing values =>
    let encodings := ((valueSolutions c values documents).filterMap (· encoded)).dedup
    some (.literal (.plain
      (packing.textOf (c.store.arrange raw key (encodings.filterMap Term.text?)))))

/-! ## Separate columns -/

/-- Whether a reduction is one of the values at documents: its elements do not bind the keys,
and a document without any of their solutions has no value. -/
structure Reduced.IsSeparated (r : Reduced) (keys : List Variable) : Prop where
  values : ∀ v ∈ elementVariables r.values, v ∉ keys
  aggregate : ∃ f e distinct, r.aggregate = .reduce f e distinct ∧
    ((∃ v, e = .var v ∧ v ∉ keys ∧ (v = rootVariable → r.values = [])) ∨
      ∃ i, e = .iri i ∧ r.values = [])

/-- The variables that a column has in the rows. -/
def Column.variables : Column → List Variable
  | .plain v => [v]
  | .aggregate v _ _ => [v]
  | .packed v raw _ _ _ => [v, raw]

/-- A variable is one of one column only, if all variables of columns are different. -/
theorem Column.eq_of_mem_variables {columns : List Column}
    (hnodup : (columns.flatMap Column.variables).Nodup) {a b : Column} {v : Variable}
    (ha : a ∈ columns) (hb : b ∈ columns) (hva : v ∈ a.variables) (hvb : v ∈ b.variables) :
    a = b := by
  by_contra hne
  have : Std.Symm (Function.onFun List.Disjoint Column.variables) := ⟨fun _ _ h => h.symm⟩
  exact (List.nodup_flatMap.mp hnodup).2.forall ha hb hne hva hvb

/-- Whether the columns of a grouped selection share the keys and nothing else, and all
documents have the keys. -/
structure Selection.IsSeparated (s : Selection) : Prop where
  groupBy_eq : s.groupBy = s.columns.filterMap Column.key?
  groupBy_ne_nil : s.groupBy ≠ []
  nodup : (rootVariable :: s.columns.flatMap Column.variables).Nodup
  counts : ∀ v a, .aggregate v a none ∈ s.columns → a = .reduce .count (.var rootVariable) true
  reduced : ∀ column ∈ s.columns, ∀ r, column.reduced? = some r → r.IsSeparated s.groupBy
  bound : ∀ c : Context, c.given = .empty → ∀ μ ∈ groupSolutions c s.elements,
    ∀ v ∈ rootVariable :: s.groupBy, μ.IsBound v

/-! ## Bags with a key -/

namespace Sparql.Solutions

variable {A B : Solutions} {key μ : Solution}

/-- Solutions without a partner add nothing to the values of a left join if they have none. -/
theorem filterMap_leftJoin {β : Type} {f : Solution → Option β}
    (h : ∀ μ ∈ A, extensions μ B = 0 → f μ = none) :
    (leftJoin A B).filterMap f = (join A B).filterMap f := by
  rw [leftJoin, join, Multiset.filterMap_bind, Multiset.filterMap_bind]
  refine Multiset.bind_congr fun μ hμ => ?_
  split
  · next hzero =>
    rw [hzero, ← Multiset.cons_zero, Multiset.filterMap_cons_none _ _ (h μ hμ hzero)]
  · rfl

@[simp] theorem leftJoin_unit (A : Solutions) : leftJoin A {.empty} = A := by
  classical
  have hone : ∀ μ ∈ A,
      (if extensions μ {.empty} = 0 then {μ} else extensions μ {.empty}) = {μ} := by
    intro μ _
    rw [extensions_unit, if_neg (Multiset.singleton_ne_zero μ)]
  rw [leftJoin, Multiset.bind_congr hone]
  exact (Multiset.bind_singleton A id).trans (Multiset.map_id A)

/-- A test that a left join does not change can be made before it. -/
theorem filter_leftJoin {p : Solution → Prop} [DecidablePred p]
    (h : ∀ μ ∈ A, ∀ κ ∈ leftJoin {μ} B, p κ ↔ p μ) :
    (leftJoin A B).filter p = leftJoin (A.filter p) B := by
  rw [leftJoin_eq_bind A, leftJoin_eq_bind (A.filter p), Multiset.filter_bind,
    Multiset.bind_filter]
  refine Multiset.bind_congr fun μ hμ => ?_
  split
  · next hp => exact Multiset.filter_eq_self.mpr fun κ hκ => (h μ hμ κ hκ).mpr hp
  · next hp => exact Multiset.filter_eq_nil.mpr fun κ hκ => mt (h μ hμ κ hκ).mp hp

/-- Bindings that a bag does not have can be added after its solutions. -/
theorem extensions_merge (h : ∀ ν ∈ B, ∀ v, key v ≠ none → ν v = none) :
    extensions (key.merge μ) B = (extensions μ B).map key.merge := by
  rw [extensions, extensions, Multiset.map_bind]
  refine Multiset.bind_congr fun ν hν => ?_
  have hcompatible : (key.merge μ).Compatible ν ↔ μ.Compatible ν := by
    refine forall_congr' fun v => forall₂_congr fun t u => ?_
    cases hkey : key v with
    | none => rw [Solution.merge, hkey, Option.none_or]
    | some w => simp [h ν hν v (by simp [hkey])]
  by_cases hc : μ.Compatible ν
  · rw [pair_of_compatible hc, pair_of_compatible (hcompatible.mpr hc), Multiset.map_singleton,
      Solution.merge_assoc]
  · rw [pair_of_not_compatible hc, pair_of_not_compatible (mt hcompatible.mp hc),
      Multiset.map_zero]

theorem leftJoin_merge (h : ∀ ν ∈ B, ∀ v, key v ≠ none → ν v = none) :
    leftJoin (A.map key.merge) B = (leftJoin A B).map key.merge := by
  rw [leftJoin, leftJoin, Multiset.bind_map, Multiset.map_bind]
  refine Multiset.bind_congr fun μ _ => ?_
  rw [extensions_merge h]
  by_cases hzero : extensions μ B = 0
  · rw [if_pos hzero, if_pos (by rw [hzero, Multiset.map_zero]), Multiset.map_singleton]
  · rw [if_neg hzero, if_neg (mt Multiset.map_eq_zero.mp hzero)]

end Sparql.Solutions

theorem Sparql.Solution.IsKey.restrict_merge {keys : List Variable} {key μ : Solution}
    (hkey : IsKey keys key) (hμ : ∀ v ∈ keys, μ v = none) :
    (key.merge μ).restrict keys = key := by
  refine HasKey.restrict_eq (fun v hv => ?_) hkey
  rw [Solution.merge, hμ v hv, Option.or_none]

namespace Selection

variable {s : Selection} {store : Store} {data : Dataset} {key : Solution} {r : Term}

theorem eval_documents : s.documents.eval { store := store, data := data } =
    groupSolutions { store := store, data := data, graph := s.graph } s.elements :=
  (s.eval_inGraph _ store data).trans (eval_groupPattern _ _)

theorem mem_members : (key, r) ∈ s.members store data ↔
    ∃ μ ∈ s.documents.eval { store := store, data := data },
      μ.restrict s.groupBy = key ∧ μ rootVariable = some r := by
  simp only [members, Multiset.mem_toFinset, Multiset.mem_filterMap, Option.map_eq_some_iff,
    Prod.mk.injEq]
  refine exists_congr fun μ => and_congr_right fun _ => ?_
  constructor
  · rintro ⟨_, hr, hkey, rfl⟩
    exact ⟨hkey, hr⟩
  · rintro ⟨hkey, hr⟩
    exact ⟨r, hr, hkey, rfl⟩

theorem mem_documentsOf : r ∈ s.documentsOf store data key ↔ (key, r) ∈ s.members store data := by
  simp only [documentsOf, Finset.mem_image, Finset.mem_filter, Prod.exists, exists_eq_right]

theorem mem_keys_of_mem_members (h : (key, r) ∈ s.members store data) :
    key ∈ s.keys store data := by
  classical
  exact Finset.mem_image.mpr ⟨_, h, rfl⟩

namespace IsSeparated

variable (hs : s.IsSeparated)
include hs

theorem isBound {μ : Solution} (hμ : μ ∈ s.documents.eval { store := store, data := data }) :
    ∀ v ∈ rootVariable :: s.groupBy, μ.IsBound v := by
  rw [eval_documents] at hμ
  exact hs.bound { store := store, data := data, graph := s.graph } rfl μ hμ

theorem mem_groupBy {v : Variable} : v ∈ s.groupBy ↔ .plain v ∈ s.columns := by
  rw [hs.groupBy_eq, List.mem_filterMap]
  constructor
  · rintro ⟨column, hcolumn, hkey⟩
    cases column with
    | plain w =>
      obtain rfl := Option.some.inj hkey
      exact hcolumn
    | aggregate | packed => cases hkey
  · exact fun h => ⟨_, h, rfl⟩

theorem nodup_variables : (s.columns.flatMap Column.variables).Nodup :=
  (List.nodup_cons.mp hs.nodup).2

/-- A variable is one of one column only. -/
theorem column_eq {a b : Column} {v : Variable} (ha : a ∈ s.columns) (hb : b ∈ s.columns)
    (hva : v ∈ a.variables) (hvb : v ∈ b.variables) : a = b :=
  Column.eq_of_mem_variables hs.nodup_variables ha hb hva hvb

theorem root_notMem : rootVariable ∉ s.groupBy := fun h =>
  (List.nodup_cons.mp hs.nodup).1
    (List.mem_flatMap.mpr ⟨_, hs.mem_groupBy.mp h, List.mem_singleton_self _⟩)

theorem mem_keys : key ∈ s.keys store data ↔
    ∃ μ ∈ s.documents.eval { store := store, data := data }, μ.restrict s.groupBy = key := by
  simp only [keys, Finset.mem_image, Prod.exists, exists_and_right, exists_eq_right, mem_members]
  constructor
  · rintro ⟨r, μ, hμ, hkey, -⟩
    exact ⟨μ, hμ, hkey⟩
  · rintro ⟨μ, hμ, hkey⟩
    obtain ⟨r, hr⟩ := hs.isBound hμ rootVariable List.mem_cons_self
    exact ⟨r, μ, hμ, hkey, hr⟩

theorem isKey (h : key ∈ s.keys store data) : IsKey s.groupBy key := by
  obtain ⟨μ, hμ, rfl⟩ := hs.mem_keys.mp h
  refine ⟨fun v hv => ?_, fun v hv => Solution.restrict_of_notMem hv⟩
  rw [Solution.restrict_of_mem hv]
  exact hs.isBound hμ v (List.mem_cons_of_mem _ hv)

/-! ### Documents of a key -/

theorem restrict_document {μ : Solution} (hr : μ rootVariable = some r) :
    μ.restrict (s.groupBy ++ [rootVariable]) =
      (μ.restrict s.groupBy).merge (.ofDocument r) := by
  funext v
  by_cases hv : v = rootVariable
  · subst hv
    rw [Solution.restrict_of_mem (by simp), hr, Solution.merge,
      Solution.restrict_of_notMem hs.root_notMem, Option.none_or]
    exact (Solution.set_self _ _ _).symm
  · have hdocument : Solution.ofDocument r v = none := Solution.set_of_ne _ hv r
    rw [Solution.merge, hdocument, Option.or_none]
    by_cases hkey : v ∈ s.groupBy
    · rw [Solution.restrict_of_mem hkey, Solution.restrict_of_mem (List.mem_append_left _ hkey)]
    · rw [Solution.restrict_of_notMem hkey, Solution.restrict_of_notMem (by simp [hkey, hv])]

theorem ofDocument_groupBy : ∀ v ∈ s.groupBy, Solution.ofDocument r v = none := fun v hv =>
  Solution.set_of_ne _ (fun he : v = rootVariable => hs.root_notMem (he ▸ hv)) r

theorem merge_root (hkey : IsKey s.groupBy key) :
    key.merge (.ofDocument r) rootVariable = some r := by
  rw [Solution.merge, hkey.unbound _ hs.root_notMem, Option.none_or]
  exact Solution.set_self _ _ _

theorem restrict_ofDocument (hkey : IsKey s.groupBy key) :
    (key.merge (.ofDocument r)).restrict s.groupBy = key :=
  hkey.restrict_merge hs.ofDocument_groupBy

open scoped Classical in
/-- The distinct documents of the groups. -/
theorem dedup_documents :
    ((s.documents.eval { store := store, data := data }).map
      (·.restrict (s.groupBy ++ [rootVariable]))).dedup = s.memberSolutions store data := by
  have hinj : ∀ m ∈ s.members store data, ∀ m' ∈ s.members store data,
      m.1.merge (.ofDocument m.2) = m'.1.merge (.ofDocument m'.2) → m = m' := by
    rintro ⟨k, r⟩ hm ⟨k', r'⟩ hm' he
    have hk := hs.isKey (mem_keys_of_mem_members hm)
    have hk' := hs.isKey (mem_keys_of_mem_members hm')
    have hkeys : k = k' := by
      rw [← hs.restrict_ofDocument (r := r) hk, he, hs.restrict_ofDocument hk']
    have hdocuments : some r = some r' := by
      rw [← hs.merge_root (r := r) hk, he, hs.merge_root hk']
    rw [hkeys, Option.some.inj hdocuments]
  have hnodup : (s.memberSolutions store data).Nodup :=
    (s.members store data).nodup.map_on hinj
  refine (Multiset.Nodup.ext (Multiset.nodup_dedup _) hnodup).mpr fun κ => ?_
  simp only [memberSolutions, Multiset.mem_dedup, Multiset.mem_map, Finset.mem_val, Prod.exists,
    mem_members]
  constructor
  · rintro ⟨μ, hμ, rfl⟩
    obtain ⟨r, hr⟩ := hs.isBound hμ rootVariable List.mem_cons_self
    exact ⟨_, r, ⟨μ, hμ, rfl, hr⟩, (hs.restrict_document hr).symm⟩
  · rintro ⟨_, r, ⟨μ, hμ, rfl, hr⟩, rfl⟩
    exact ⟨μ, hμ, hs.restrict_document hr⟩

open scoped Classical in
/-- The distinct documents of one group. -/
theorem filter_memberSolutions :
    (s.memberSolutions store data).filter (fun μ => μ.restrict s.groupBy = key) =
      ((s.documentsOf store data key).val.map .ofDocument).map key.merge := by
  have hfilter : ∀ m ∈ (s.members store data).val,
      (m.1.merge (.ofDocument m.2)).restrict s.groupBy = key ↔ m.1 = key := fun m hm => by
    rw [hs.restrict_ofDocument (hs.isKey (mem_keys_of_mem_members hm))]
  have hinj : Set.InjOn Prod.snd
      ((s.members store data).filter (·.1 = key) : Set (Solution × Term)) := by
    rintro ⟨k, r⟩ hm ⟨k', r'⟩ hm' (rfl : r = r')
    rw [Finset.mem_coe, Finset.mem_filter] at hm hm'
    exact Prod.ext (hm.2.trans hm'.2.symm) rfl
  rw [memberSolutions, Multiset.filter_map, documentsOf, Finset.image_val_of_injOn hinj,
    Finset.filter_val, Multiset.map_map, Multiset.map_map]
  rw [Multiset.filter_congr (q := fun m => m.1 = key) hfilter]
  refine Multiset.map_congr rfl fun m hm => ?_
  rw [← (Multiset.mem_filter.mp hm).2]
  rfl

/-! ### Reductions -/

section Reductions

variable {red : Reduced} (hr : red.IsSeparated s.groupBy)
include hr

omit hs in
theorem values_groupBy {c : Context} :
    ∀ ν ∈ (groupPattern red.values).eval c, ∀ v ∈ s.groupBy, ν v = none := fun ν hν v hv => by
  rw [eval_groupPattern] at hν
  exact apply_of_mem_groupSolutions (fun hv' => hr.values v hv' hv) hν

omit hs hr in
open scoped Classical in
/-- What a reduction groups: the distinct documents with their values. -/
theorem eval_inner (hs : s.IsSeparated) :
    (if red.values.isEmpty then
        Pattern.distinct (.project s.documents (s.groupBy ++ [rootVariable]))
      else .leftJoin (.distinct (.project s.documents (s.groupBy ++ [rootVariable])))
        (s.inGraph (groupPattern red.values))).eval { store := store, data := data } =
      leftJoin (s.memberSolutions store data)
        ((groupPattern red.values).eval { store := store, data := data, graph := s.graph }) := by
  have hdistinct : (Pattern.distinct (.project s.documents (s.groupBy ++ [rootVariable]))).eval
      { store := store, data := data } = s.memberSolutions store data := by
    rw [Pattern.eval, Pattern.eval, hs.dedup_documents]
  split
  · next hempty =>
    rw [hdistinct, List.isEmpty_iff.mp hempty]
    exact (Solutions.leftJoin_unit _).symm
  · rw [Pattern.eval, hdistinct, eval_inGraph]

omit hs hr in
/-- The left join with values changes no key. -/
theorem restrict_of_mem_leftJoin {V : Solutions} (hV : ∀ ν ∈ V, ∀ v ∈ s.groupBy, ν v = none)
    {μ κ : Solution} (h : κ ∈ leftJoin {μ} V) : κ.restrict s.groupBy = μ.restrict s.groupBy := by
  funext v
  by_cases hv : v ∈ s.groupBy
  · rw [Solution.restrict_of_mem hv, Solution.restrict_of_mem hv]
    exact apply_of_mem_leftJoin (fun ν hν => hV ν hν v hv) h
  · rw [Solution.restrict_of_notMem hv, Solution.restrict_of_notMem hv]

omit hr in
/-- The groups of a reduction are those of the documents. -/
theorem groupKeys_leftJoin {V : Solutions} (hV : ∀ ν ∈ V, ∀ v ∈ s.groupBy, ν v = none) :
    Sparql.groupKeys s.groupBy (leftJoin (s.memberSolutions store data) V) =
      (s.keys store data).val := by
  classical
  rw [Sparql.groupKeys, if_neg hs.groupBy_ne_nil]
  refine (Multiset.Nodup.ext (Multiset.nodup_dedup _) (s.keys store data).nodup).mpr fun k => ?_
  rw [Multiset.mem_dedup, Multiset.mem_map, Finset.mem_val]
  constructor
  · rintro ⟨κ, hκ, rfl⟩
    rw [Solutions.leftJoin_eq_bind, Multiset.mem_bind] at hκ
    obtain ⟨μ, hμ, hκ⟩ := hκ
    obtain ⟨⟨k, r⟩, hm, rfl⟩ := Multiset.mem_map.mp hμ
    have hkey := mem_keys_of_mem_members hm
    rwa [restrict_of_mem_leftJoin hV hκ, hs.restrict_ofDocument (hs.isKey hkey)]
  · intro hk
    obtain ⟨⟨k, r⟩, hm, rfl⟩ := Finset.mem_image.mp hk
    obtain ⟨κ, hκ⟩ := Multiset.exists_mem_of_ne_zero
      (Solutions.leftJoin_ne_zero (μ := k.merge (.ofDocument r)) V)
    refine ⟨κ, ?_, ?_⟩
    · rw [Solutions.leftJoin_eq_bind, Multiset.mem_bind]
      exact ⟨_, Multiset.mem_map.mpr ⟨_, hm, rfl⟩, hκ⟩
    · rw [restrict_of_mem_leftJoin hV hκ, hs.restrict_ofDocument (hs.isKey hk)]

omit hs in
/-- A reduction of the values of a group is one of the values at its documents. -/
theorem eval_aggregate (hkey : IsKey s.groupBy key) (documents : Finset Term) :
    red.aggregate.eval { store := store, data := data } red.result key
        ((leftJoin (documents.val.map .ofDocument) ((groupPattern red.values).eval
          { store := store, data := data, graph := s.graph })).map key.merge) =
      red.value { store := store, data := data, graph := s.graph } key documents := by
  set c : Context := { store := store, data := data, graph := s.graph }
  obtain ⟨f, e, distinct, hreduce, he⟩ := hr.aggregate
  have hvalue : ∀ μ : Solution,
      e.eval { store := store, data := data } (key.merge μ) = e.eval c μ := by
    intro μ
    rcases he with ⟨v, rfl, hv, -⟩ | ⟨i, rfl, -⟩
    · have hmerge : key.merge μ v = μ v := by
        rw [Solution.merge, hkey.unbound v hv, Option.none_or]
      exact hmerge
    · rfl
  -- the values of a document without a partner do not bind the variable that is reduced
  have hunmatched : ∀ μ ∈ documents.val.map .ofDocument,
      extensions μ ((groupPattern red.values).eval c) = 0 → e.eval c μ = none := by
    intro μ hμ hzero
    have hne : red.values ≠ [] := fun hnil => by
      rw [hnil] at hzero
      exact Multiset.singleton_ne_zero μ ((Solutions.extensions_unit μ).symm.trans hzero)
    rcases he with ⟨v, rfl, -, hroot⟩ | ⟨i, -, hnil⟩
    · obtain ⟨r, -, rfl⟩ := Multiset.mem_map.mp hμ
      exact Solution.set_of_ne _ (fun he : v = rootVariable => hne (hroot he)) r
    · exact absurd hnil hne
  rw [Reduced.value, valueSolutions, hreduce]
  refine Aggregate.eval_reduce_congr rfl ?_
  rw [Multiset.filterMap_map, ← Solutions.filterMap_leftJoin hunmatched]
  exact congrArg (Multiset.filterMap · _) (funext hvalue)

/-- A reduction has one row for each group, with its value. -/
theorem eval_reduction : (s.reduction red).eval { store := store, data := data } =
    (s.keys store data).val.map fun key => key.assign red.result
      (red.value { store := store, data := data, graph := s.graph } key
        (s.documentsOf store data key)) := by
  classical
  have hV := values_groupBy (c := { store := store, data := data, graph := s.graph }) hr
  rw [reduction, Pattern.eval, eval_inner hs, hs.groupKeys_leftJoin hV]
  refine Multiset.map_congr rfl fun key hk => ?_
  have hkey := hs.isKey (Finset.mem_val.mp hk)
  have houtside : ∀ ν ∈ (groupPattern red.values).eval
      { store := store, data := data, graph := s.graph }, ∀ v, key v ≠ none → ν v = none :=
    fun ν hν v hv => hV ν hν v (by_contra fun hv' => hv (hkey.unbound v hv'))
  rw [Aggregate.bindAll_cons, Aggregate.bindAll, ← eval_aggregate hr hkey,
    ← Solutions.leftJoin_merge houtside, ← hs.filter_memberSolutions, Solutions.filter_leftJoin]
  intro μ _ κ hκ
  rw [restrict_of_mem_leftJoin hV hκ]

end Reductions

end IsSeparated

end Selection

end DocGraph
