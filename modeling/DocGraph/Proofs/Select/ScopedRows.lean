import DocGraph.Proofs.Select.GroupRows
import DocGraph.Proofs.Select.ScopedGroups

/-!
# Selections in scope

The pattern of a selection obeys the rules for variables if its parts do
(`Selection.IsScoped.pattern`): what a column reduces is in scope of the reductions and
wrappings that come after it, and shares nothing but the keys of the groups with them.
-/

namespace DocGraph

open Rdf (Variable)
open Sparql (Aggregate Pattern)

/-- Whether what a column reduces in a query of its own obeys the rules, with the document
and the keys of the groups in scope. -/
structure Reduced.IsScoped (r : Reduced) (keys : List Variable) : Prop where
  aggregate : r.aggregate.IsScoped
  values : AreScoped r.values
  result : r.result ∉ elementVariables r.values
  keys : keys.Disjoint (elementVariables r.values)
  root : rootVariable ∉ elementAssignments r.values

/-- Whether the parts of a selection obey the rules for variables: its elements bind the
document and the keys, its columns have variables of their own. -/
structure Selection.IsScoped (s : Selection) : Prop where
  elements : AreScoped s.elements
  root : rootVariable ∈ elementVariables s.elements
  root_unassigned : rootVariable ∉ elementAssignments s.elements
  keys : ∀ v ∈ s.columns.filterMap Column.key?, v ∈ elementVariables s.elements
  nodup : (rootVariable :: s.columns.flatMap Column.variables).Nodup
  isGrouped : s.groupBy ≠ [] → s.isGrouped = true
  groupBy_eq : s.isGrouped = true → s.groupBy = s.columns.filterMap Column.key?
  counts : ∀ v a, (v, a) ∈ s.columns.filterMap Column.ofDocuments? →
    a.IsScoped ∧ v ∉ elementVariables s.elements
  reduced : ∀ r ∈ s.columns.filterMap Column.reduced?, r.IsScoped s.groupBy
  orderBy : ∀ key ∈ s.orderBy, key.column ∈ s.columns.map Column.carrier

/-! ## Kinds of columns -/

namespace Column

variable {columns : List Column} (hnodup : (columns.flatMap Column.variables).Nodup)
include hnodup

/-- What is made of columns in two ways is different, if it is for each of them. -/
theorem disjoint_filterMap {f g : Column → Option Variable}
    (hf : ∀ column v, f column = some v → v ∈ column.variables)
    (hg : ∀ column v, g column = some v → v ∈ column.variables)
    (hne : ∀ column ∈ columns, ∀ v, f column = some v → g column ≠ some v) :
    (columns.filterMap f).Disjoint (columns.filterMap g) := by
  intro v hv
  obtain ⟨column, hcolumn, hfv⟩ := List.mem_filterMap.mp hv
  exact notMem_filterMap hnodup hg hcolumn (hf column v hfv) (hne column hcolumn v hfv)

theorem disjoint_key? {g : Column → Option Variable}
    (hg : ∀ column v, g column = some v → v ∈ column.variables)
    (hplain : ∀ v, g (.plain v) = none) :
    (columns.filterMap key?).Disjoint (columns.filterMap g) := by
  refine disjoint_filterMap hnodup (fun _ _ => mem_variables_of_key?) hg fun column _ v hv hgv => ?_
  cases column with
  | plain w =>
    rw [hplain] at hgv
    cases hgv
  | aggregate | packed => cases hv

theorem disjoint_count? {g : Column → Option Variable}
    (hg : ∀ column v, g column = some v → v ∈ column.variables)
    (hcount : ∀ v a, g (.aggregate v a none) = none) :
    (columns.filterMap count?).Disjoint (columns.filterMap g) := by
  refine disjoint_filterMap hnodup (fun _ _ => mem_variables_of_count?) hg
    fun column _ v hv hgv => ?_
  rcases column with _ | ⟨w, a, _ | values⟩ | _
  · cases hv
  · rw [hcount] at hgv
    cases hgv
  · cases hv
  · cases hv

theorem disjoint_result?_text? :
    (columns.filterMap result?).Disjoint (columns.filterMap text?) := by
  refine disjoint_filterMap hnodup (fun _ _ => mem_variables_of_result?)
    (fun _ _ => mem_variables_of_text?) fun column hcolumn v hv htext => ?_
  cases column with
  | plain | aggregate => cases htext
  | packed w raw encoded packing values =>
    have hvariables := (List.nodup_flatMap.mp hnodup).1 _ hcolumn
    refine (List.nodup_cons.mp hvariables).1 (List.mem_singleton.mpr ?_)
    exact (Option.some.inj htext).trans (Option.some.inj hv).symm

end Column

/-! ## Patterns -/

theorem elementAssignments_subset (es : List Element) :
    elementAssignments es ⊆ elementVariables es := by
  rw [← assigned_groupPattern, ← scope_groupPattern]
  exact fun v => Pattern.mem_scope_of_mem_assigned _

theorem Sparql.Aggregate.areScoped_of_forall {aggregates : List (Variable × Aggregate)}
    (h : ∀ v a, (v, a) ∈ aggregates → a.IsScoped) : AreScoped aggregates := by
  induction aggregates with
  | nil =>
    rw [AreScoped]
    trivial
  | cons e rest ih =>
    rw [AreScoped]
    exact ⟨h _ _ List.mem_cons_self, ih fun v a hmem => h v a (List.mem_cons_of_mem _ hmem)⟩

namespace Selection

variable {s : Selection} {p : Pattern}

theorem scope_inGraph (s : Selection) (p : Pattern) : (s.inGraph p).scope = p.scope := by
  unfold inGraph
  cases s.graph <;> rfl

theorem assigned_inGraph (s : Selection) (p : Pattern) : (s.inGraph p).assigned = p.assigned := by
  unfold inGraph
  cases s.graph <;> rfl

theorem isScoped_inGraph (h : p.IsScoped) : (s.inGraph p).IsScoped := by
  unfold inGraph
  cases s.graph with
  | none => exact h
  | some g =>
    dsimp only
    rwa [Pattern.IsScoped]

theorem scope_documents (s : Selection) : s.documents.scope = elementVariables s.elements :=
  (s.scope_inGraph _).trans (scope_groupPattern _)

theorem assigned_documents (s : Selection) :
    s.documents.assigned = elementAssignments s.elements :=
  (s.assigned_inGraph _).trans (assigned_groupPattern _)

/-! ## Groups -/

/-- The keys and the documents of the groups, once each. -/
def pairs (s : Selection) : Pattern :=
  .distinct (.project s.documents (s.groupBy ++ [rootVariable]))

theorem reduction_eq (s : Selection) (r : Reduced) :
    s.reduction r = .group
      (if r.values.isEmpty then s.pairs else .leftJoin s.pairs (s.inGraph (groupPattern r.values)))
      s.groupBy [(r.result, r.aggregate)] := rfl

theorem scope_groups (s : Selection) :
    s.groups.scope = s.groupBy ++ (s.columns.filterMap Column.ofDocuments?).map Prod.fst := by
  rw [groups]
  split
  · next h =>
    rw [Bool.and_eq_true, List.isEmpty_iff, List.isEmpty_iff] at h
    rw [h.1, h.2]
    rfl
  · rfl

theorem assigned_groups (s : Selection) :
    s.groups.assigned = (s.columns.filterMap Column.ofDocuments?).map Prod.fst := by
  rw [groups]
  split
  · next h =>
    rw [Bool.and_eq_true, List.isEmpty_iff, List.isEmpty_iff] at h
    rw [h.1]
    rfl
  · rfl

theorem scope_foldl_reduction (rs : List Reduced) (p : Pattern) :
    (rs.foldl (fun p r => p.joined (s.reduction r)) p).scope =
      p.scope ++ rs.flatMap fun r => s.groupBy ++ [r.result] := by
  induction rs generalizing p with
  | nil => exact (List.append_nil _).symm
  | cons r rs ih =>
    rw [List.foldl_cons, ih, Pattern.scope_joined, List.flatMap_cons, List.append_assoc]
    rfl

theorem scope_foldl_around (ws : List Wrapping) (p : Pattern) :
    (ws.foldl Wrapping.around p).scope = p.scope ++ ws.map Wrapping.result := by
  induction ws generalizing p with
  | nil => exact (List.append_nil _).symm
  | cons w ws ih =>
    rw [List.foldl_cons, ih, Wrapping.around, Pattern.scope, List.append_assoc]
    rfl

theorem mem_scope_foldl_reduction {rs : List Reduced} {v : Variable} :
    v ∈ (rs.foldl (fun p r => p.joined (s.reduction r)) p).scope ↔
      v ∈ p.scope ∨ ∃ r ∈ rs, v ∈ s.groupBy ∨ v = r.result := by
  rw [scope_foldl_reduction, List.mem_append, List.mem_flatMap]
  simp only [List.mem_append, List.mem_singleton]

theorem isScoped_foldl_reduction {rs : List Reduced} (hp : p.IsScoped)
    (hrs : ∀ r ∈ rs, (s.reduction r).IsScoped) (hnodup : (rs.map Reduced.result).Nodup)
    (hkeys : p.assigned.Disjoint s.groupBy) (hgroupBy : s.groupBy.Disjoint (rs.map Reduced.result))
    (hscope : p.scope.Disjoint (rs.map Reduced.result)) :
    (rs.foldl (fun p r => p.joined (s.reduction r)) p).IsScoped := by
  induction rs generalizing p with
  | nil => exact hp
  | cons r rs ih =>
    rw [List.forall_mem_cons] at hrs
    rw [List.map_cons, List.disjoint_cons_right] at hgroupBy hscope
    rw [List.map_cons, List.nodup_cons] at hnodup
    have hresult : p.assigned.Disjoint [r.result] := List.disjoint_singleton.mpr fun hmem =>
      hscope.1 (Pattern.mem_scope_of_mem_assigned p hmem)
    refine ih (Pattern.isScoped_joined hp hrs.1 ⟨?_, ?_⟩) hrs.2 hnodup.2 ?_ hgroupBy.2 ?_
    · exact List.disjoint_append_right.mpr ⟨hkeys, hresult⟩
    · exact List.disjoint_singleton.mpr hscope.1
    · rw [Pattern.assigned_joined, List.disjoint_append_left]
      exact ⟨hkeys, (List.disjoint_singleton.mpr hgroupBy.1).symm⟩
    · rw [Pattern.scope_joined, List.disjoint_append_left]
      refine ⟨hscope.2, List.disjoint_append_left.mpr ⟨hgroupBy.2, ?_⟩⟩
      exact List.singleton_disjoint.mpr hnodup.1

theorem isScoped_foldl_around {ws : List Wrapping} (hp : p.IsScoped)
    (hnodup : (ws.map Wrapping.result).Nodup) (hscope : p.scope.Disjoint (ws.map Wrapping.result)) :
    (ws.foldl Wrapping.around p).IsScoped := by
  induction ws generalizing p with
  | nil => exact hp
  | cons w ws ih =>
    rw [List.map_cons, List.disjoint_cons_right] at hscope
    rw [List.map_cons, List.nodup_cons] at hnodup
    refine ih ?_ hnodup.2 ?_
    · rw [Wrapping.around, Pattern.IsScoped]
      refine ⟨hp, ?_, hscope.1⟩
      simp only [Sparql.Expr.IsScoped, Sparql.Expr.AreScoped, Sparql.Expr.string, and_self]
    · rw [Wrapping.around, Pattern.scope, List.disjoint_append_left]
      exact ⟨hscope.2, List.singleton_disjoint.mpr hnodup.1⟩

namespace IsScoped

variable (hs : s.IsScoped)
include hs

theorem nodup_variables : (s.columns.flatMap Column.variables).Nodup :=
  (List.nodup_cons.mp hs.nodup).2

theorem ne_root {column : Column} {v : Variable} (hcolumn : column ∈ s.columns)
    (hv : v ∈ column.variables) : v ≠ rootVariable := by
  rintro rfl
  exact (List.nodup_cons.mp hs.nodup).1 (List.mem_flatMap.mpr ⟨column, hcolumn, hv⟩)

theorem documents : s.documents.IsScoped :=
  isScoped_inGraph (isScoped_groupPattern hs.elements)

/-- The keys are plain columns. -/
theorem mem_keys_of_mem_groupBy {v : Variable} (h : v ∈ s.groupBy) :
    v ∈ s.columns.filterMap Column.key? := by
  rwa [← hs.groupBy_eq (hs.isGrouped (List.ne_nil_of_mem h))]

/-- What is made of columns that are no keys is different from the keys. -/
theorem disjoint_groupBy {g : Column → Option Variable}
    (hg : ∀ column v, g column = some v → v ∈ column.variables)
    (hplain : ∀ v, g (.plain v) = none) :
    s.groupBy.Disjoint (s.columns.filterMap g) := fun _ hv =>
  Column.disjoint_key? hs.nodup_variables hg hplain (hs.mem_keys_of_mem_groupBy hv)

theorem nodup_groupBy : (s.groupBy ++ [rootVariable]).Nodup := by
  rw [List.nodup_append]
  refine ⟨?_, List.nodup_singleton _, fun v hv w hw => ?_⟩
  · by_cases hempty : s.groupBy = []
    · rw [hempty]
      exact .nil
    · rw [hs.groupBy_eq (hs.isGrouped hempty)]
      exact Column.nodup_filterMap hs.nodup_variables fun _ _ => Column.mem_variables_of_key?
  · obtain ⟨column, hcolumn, hkey⟩ := List.mem_filterMap.mp (hs.mem_keys_of_mem_groupBy hv)
    rw [List.mem_singleton.mp hw]
    exact hs.ne_root hcolumn (Column.mem_variables_of_key? hkey)

theorem subset_scope_documents : s.groupBy ++ [rootVariable] ⊆ s.documents.scope := by
  intro v hv
  rw [scope_documents]
  rcases List.mem_append.mp hv with hv | hv
  · exact hs.keys v (hs.mem_keys_of_mem_groupBy hv)
  · rw [List.mem_singleton.mp hv]
    exact hs.root

theorem pairs : s.pairs.IsScoped := by
  rw [Selection.pairs, Pattern.IsScoped, Pattern.IsScoped]
  exact ⟨hs.documents, hs.nodup_groupBy, hs.subset_scope_documents⟩

/-- The values of a column bind no key and do not assign the document. -/
theorem apart_pairs {r : Reduced} (hr : r.IsScoped s.groupBy) :
    s.pairs.Apart (s.inGraph (groupPattern r.values)) := by
  constructor
  · intro v hv hvalues
    rw [scope_inGraph, scope_groupPattern] at hvalues
    obtain ⟨hassigned, hpair⟩ := List.mem_filter.mp hv
    rcases List.mem_append.mp (of_decide_eq_true hpair) with hkey | hroot
    · exact hr.keys hkey hvalues
    · rw [List.mem_singleton.mp hroot, assigned_documents] at hassigned
      exact hs.root_unassigned hassigned
  · intro v hpair hvalues
    rw [assigned_inGraph, assigned_groupPattern] at hvalues
    rcases List.mem_append.mp hpair with hkey | hroot
    · exact hr.keys hkey (elementAssignments_subset _ hvalues)
    · rw [List.mem_singleton.mp hroot] at hvalues
      exact hr.root hvalues

theorem result_notMem_pairs {r : Reduced} (hr : r ∈ s.columns.filterMap Column.reduced?) :
    r.result ∉ s.pairs.scope := by
  obtain ⟨column, hcolumn, hcr⟩ := List.mem_filterMap.mp hr
  have hv : column.result? = some r.result := by rw [Column.result?, hcr, Option.map_some]
  intro hmem
  rcases List.mem_append.mp hmem with hkey | hroot
  · exact hs.disjoint_groupBy (fun _ _ => Column.mem_variables_of_result?) (fun _ => rfl) hkey
      (List.mem_filterMap.mpr ⟨column, hcolumn, hv⟩)
  · exact hs.ne_root hcolumn (Column.mem_variables_of_result? hv) (List.mem_singleton.mp hroot)

/-- A reduction obeys the rules. -/
theorem reduction {r : Reduced} (hr : r ∈ s.columns.filterMap Column.reduced?) :
    (s.reduction r).IsScoped := by
  have hreduced := hs.reduced r hr
  have hgroup {inner : Pattern} (hinner : inner.IsScoped)
      (hscope : inner.scope = s.pairs.scope ++ elementVariables r.values) :
      (Pattern.group inner s.groupBy [(r.result, r.aggregate)]).IsScoped := by
    rw [Pattern.IsScoped, hscope]
    refine ⟨hinner, Aggregate.areScoped_of_forall fun v a hmem => ?_,
      fun v hv => List.mem_append_left _ (List.mem_append_left _ hv),
      List.nodup_singleton _, List.disjoint_singleton.mpr ?_⟩
    · rw [(Prod.mk.inj (List.mem_singleton.mp hmem)).2]
      exact hreduced.aggregate
    · rw [List.mem_append, not_or]
      exact ⟨hs.result_notMem_pairs hr, hreduced.result⟩
  rw [reduction_eq]
  split
  · next hempty =>
    refine hgroup hs.pairs ?_
    rw [List.isEmpty_iff.mp hempty]
    exact (List.append_nil _).symm
  · refine hgroup ?_ ?_
    · rw [Pattern.IsScoped]
      exact ⟨hs.pairs, isScoped_inGraph (isScoped_groupPattern hreduced.values),
        hs.apart_pairs hreduced⟩
    · rw [Pattern.scope, scope_inGraph, scope_groupPattern]

theorem groups : s.groups.IsScoped := by
  rw [Selection.groups]
  split
  · rw [Pattern.empty, Pattern.IsScoped]
    trivial
  · rw [Pattern.IsScoped, scope_documents]
    refine ⟨hs.documents, Aggregate.areScoped_of_forall fun v a hmem => (hs.counts v a hmem).1,
      fun v hv => hs.keys v (hs.mem_keys_of_mem_groupBy hv), ?_, fun v hv hcount => ?_⟩
    · rw [List.map_filterMap]
      exact Column.nodup_filterMap hs.nodup_variables fun _ _ => Column.mem_variables_of_count?
    · obtain ⟨⟨w, a⟩, hmem, rfl⟩ := List.mem_map.mp hcount
      exact (hs.counts w a hmem).2 hv

/-- The rows of the groups obey the rules. -/
theorem grouped : s.grouped.IsScoped := by
  have hcounts : (s.columns.filterMap Column.ofDocuments?).map Prod.fst =
      s.columns.filterMap Column.count? := List.map_filterMap
  have hresults : (s.columns.filterMap Column.reduced?).map Reduced.result =
      s.columns.filterMap Column.result? := List.map_filterMap
  have htexts : (s.columns.filterMap Column.wrapping?).map Wrapping.result =
      s.columns.filterMap Column.text? := List.map_filterMap
  have hnodup := hs.nodup_variables
  have hresult (column : Column) (v : Variable) (h : column.result? = some v) :
      v ∈ column.variables := Column.mem_variables_of_result? h
  have htext (column : Column) (v : Variable) (h : column.text? = some v) :
      v ∈ column.variables := Column.mem_variables_of_text? h
  have hkeyResult := hs.disjoint_groupBy hresult fun _ => rfl
  have hkeyText := hs.disjoint_groupBy htext fun _ => rfl
  have hcountText := Column.disjoint_count? hnodup htext fun _ _ => rfl
  refine isScoped_foldl_around (isScoped_foldl_reduction hs.groups (fun r hr => hs.reduction hr)
    ?_ ?_ ?_ ?_) ?_ ?_
  · rw [hresults]
    exact Column.nodup_filterMap hnodup hresult
  · rw [assigned_groups, hcounts]
    exact (hs.disjoint_groupBy (fun _ _ => Column.mem_variables_of_count?) fun _ => rfl).symm
  · rwa [hresults]
  · rw [hresults, scope_groups, hcounts, List.disjoint_append_left]
    exact ⟨hkeyResult, Column.disjoint_count? hnodup hresult fun _ _ => rfl⟩
  · rw [htexts]
    exact Column.nodup_filterMap hnodup htext
  · intro v hv hmem
    rw [htexts] at hmem
    rw [mem_scope_foldl_reduction, scope_groups, hcounts, List.mem_append] at hv
    rcases hv with (hkey | hcount) | ⟨r, hr, hkey | rfl⟩
    · exact hkeyText hkey hmem
    · exact hcountText hcount hmem
    · exact hkeyText hkey hmem
    · exact Column.disjoint_result?_text? hnodup (hresults ▸ List.mem_map_of_mem hr) hmem

/-! ## Rows -/

/-- Every column is in scope of the rows. -/
theorem carrier_mem_scope {column : Column} (hcolumn : column ∈ s.columns) :
    column.carrier ∈ s.ordered.scope := by
  have hrows : s.ordered.scope =
      (if s.isGrouped = true then s.grouped else s.documents).scope := by
    rw [ordered]
    split <;> rfl
  rw [hrows]
  split
  · next hgrouped =>
    rw [Selection.grouped, scope_foldl_around, List.mem_append, mem_scope_foldl_reduction,
      scope_groups, List.mem_append]
    rcases column with v | ⟨v, a, _ | values⟩ | ⟨v, raw, encoded, packing, values⟩
    · refine .inl (.inl (.inl ?_))
      rw [hs.groupBy_eq hgrouped]
      exact List.mem_filterMap.mpr ⟨_, hcolumn, rfl⟩
    · refine .inl (.inl (.inr (List.mem_map.mpr ⟨(v, a), ?_, rfl⟩)))
      exact List.mem_filterMap.mpr ⟨_, hcolumn, rfl⟩
    · exact .inl (.inr ⟨⟨v, a, values⟩, List.mem_filterMap.mpr ⟨_, hcolumn, rfl⟩, .inr rfl⟩)
    · refine .inr (List.mem_map.mpr ⟨⟨v, raw, packing⟩, ?_, rfl⟩)
      exact List.mem_filterMap.mpr ⟨_, hcolumn, rfl⟩
  · next hplain =>
    rw [scope_documents]
    refine hs.keys _ (List.mem_filterMap.mpr ⟨column, hcolumn, ?_⟩)
    cases column with
    | plain v => rfl
    | aggregate | packed => exact absurd (List.any_eq_true.mpr ⟨_, hcolumn, rfl⟩) hplain

/-- The columns have different variables. -/
theorem nodup_carriers : (s.columns.map Column.carrier).Nodup := by
  rw [← List.filterMap_eq_map]
  refine Column.nodup_filterMap hs.nodup_variables fun column v hv => ?_
  rw [← Option.some.inj hv]
  cases column <;> exact List.mem_cons_self

theorem ordered : s.ordered.IsScoped := by
  have hrows : (if s.isGrouped = true then s.grouped else s.documents).IsScoped := by
    split
    · exact hs.grouped
    · exact hs.documents
  have hscope {column : Column} (hcolumn : column ∈ s.columns) := hs.carrier_mem_scope hcolumn
  rw [Selection.ordered] at hscope ⊢
  split
  · exact hrows
  · next hsome =>
    rw [if_neg hsome] at hscope
    rw [Pattern.IsScoped]
    refine ⟨hrows, fun key hkey => ?_⟩
    obtain ⟨column, hcolumn, hcarrier⟩ := List.mem_map.mp (hs.orderBy key hkey)
    rw [← hcarrier]
    exact hscope hcolumn

/-- The pattern of a selection obeys the rules if its parts do. -/
theorem pattern : s.pattern.IsScoped := by
  have hprojected : (Pattern.project s.ordered (s.columns.map Column.carrier)).IsScoped := by
    rw [Pattern.IsScoped]
    refine ⟨hs.ordered, hs.nodup_carriers, fun v hv => ?_⟩
    obtain ⟨column, hcolumn, rfl⟩ := List.mem_map.mp hv
    exact hs.carrier_mem_scope hcolumn
  have hdistinct : (if s.distinct = true then
      Pattern.distinct (.project s.ordered (s.columns.map Column.carrier))
      else .project s.ordered (s.columns.map Column.carrier)).IsScoped := by
    split
    · rwa [Pattern.IsScoped]
    · exact hprojected
  rw [Selection.pattern]
  split
  · rwa [Pattern.IsScoped]
  · exact hdistinct

end IsScoped

end Selection

end DocGraph
