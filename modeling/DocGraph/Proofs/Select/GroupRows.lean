import DocGraph.Proofs.Select.Members

/-!
# Rows of groups

The rows of a grouped selection whose columns are separate: one for each key of the
documents (`Selection.IsSeparated.eval_grouped`), and every column has the value in it
that its own elements give for the documents of the key, whatever the other columns are
(`Selection.IsSeparated.row_carrier`).
-/

namespace DocGraph

open Rdf (Dataset Term Variable)
open Sparql (Aggregate Context Expr Pattern Solution Solutions Store)
open Sparql.Solution (HasKey IsKey)
open Sparql.Solutions (join)

open scoped Classical in
/-- The row of a group with its counts. -/
noncomputable def Selection.countRow (s : Selection) (store : Store) (data : Dataset)
    (key : Solution) : Solution :=
  Aggregate.bindAll (s.columns.filterMap Column.ofDocuments?) { store := store, data := data } key
    ((s.documents.eval { store := store, data := data }).filter
      fun μ => μ.restrict s.groupBy = key)

/-- The row of a group with its counts and all that its columns reduce. -/
noncomputable def Selection.reducedRow (s : Selection) (store : Store) (data : Dataset)
    (key : Solution) : Solution :=
  (s.countRow store data key).assignAll ((s.columns.filterMap Column.reduced?).map fun r =>
    (r.result, r.value { store := store, data := data, graph := s.graph } key
      (s.documentsOf store data key)))

/-- The row of a group with all its columns. -/
noncomputable def Selection.row (s : Selection) (store : Store) (data : Dataset)
    (key : Solution) : Solution :=
  Wrapping.wrapAll { store := store, data := data } (s.columns.filterMap Column.wrapping?)
    (s.reducedRow store data key)

/-! ## Variables of columns -/

namespace Column

/-- The variable that a count of documents has in the rows. -/
def count? (column : Column) : Option Variable :=
  column.ofDocuments?.map Prod.fst

/-- The variable that what a column reduces has in the rows. -/
def result? (column : Column) : Option Variable :=
  column.reduced?.map Reduced.result

/-- The variable that the packed text of a column has in the rows. -/
def text? (column : Column) : Option Variable :=
  column.wrapping?.map Wrapping.result

variable {column : Column} {v : Variable}

theorem mem_variables_of_key? (h : column.key? = some v) : v ∈ column.variables := by
  cases column with
  | plain w => exact List.mem_singleton.mpr (Option.some.inj h).symm
  | aggregate | packed => cases h

theorem mem_variables_of_count? (h : column.count? = some v) : v ∈ column.variables := by
  rcases column with _ | ⟨w, a, _ | values⟩ | _
  · cases h
  · exact List.mem_singleton.mpr (Option.some.inj h).symm
  · cases h
  · cases h

theorem mem_variables_of_result? (h : column.result? = some v) : v ∈ column.variables := by
  rcases column with _ | ⟨w, a, _ | values⟩ | ⟨w, raw, encoded, packing, values⟩
  · cases h
  · cases h
  · exact List.mem_singleton.mpr (Option.some.inj h).symm
  · exact List.mem_cons_of_mem _ (List.mem_singleton.mpr (Option.some.inj h).symm)

/-- What is reduced on its own is neither a count nor a key. -/
theorem of_reduced? {r : Reduced} (h : column.reduced? = some r) :
    r.result ∈ column.variables ∧ column.count? ≠ some r.result ∧ column.key? ≠ some r.result := by
  refine ⟨mem_variables_of_result? (by rw [result?, h, Option.map_some]), ?_⟩
  rcases column with _ | ⟨w, a, _ | values⟩ | _
  · cases h
  · cases h
  · exact ⟨nofun, nofun⟩
  · exact ⟨nofun, nofun⟩

theorem mem_variables_of_text? (h : column.text? = some v) : v ∈ column.variables := by
  cases column with
  | plain | aggregate => cases h
  | packed w raw encoded packing values =>
    rw [← Option.some.inj h]
    exact List.mem_cons_self

section Distinct

variable {columns : List Column} (hnodup : (columns.flatMap Column.variables).Nodup)
  {f : Column → Option Variable} (hf : ∀ column v, f column = some v → v ∈ column.variables)
include hnodup hf

/-- What is made of one column each has different variables. -/
theorem nodup_filterMap : (columns.filterMap f).Nodup := by
  have hsublist : (columns.flatMap fun column => (f column).toList).Sublist
      (columns.flatMap Column.variables) := by
    refine List.Sublist.flatMap_right _ fun column _ => ?_
    cases h : f column with
    | none => exact List.nil_sublist _
    | some v => exact List.singleton_sublist.mpr (hf column v h)
  rw [List.filterMap_eq_flatMap_toList]
  exact hnodup.sublist hsublist

/-- A variable of one column is made of no other one. -/
theorem notMem_filterMap (hcolumn : column ∈ columns) (hv : v ∈ column.variables)
    (hne : f column ≠ some v) : v ∉ columns.filterMap f := by
  intro h
  obtain ⟨other, hother, hfv⟩ := List.mem_filterMap.mp h
  obtain rfl := eq_of_mem_variables hnodup hcolumn hother hv (hf other v hfv)
  exact hne hfv

end Distinct

end Column

/-! ## Rows -/

namespace Selection

variable {s : Selection} {store : Store} {data : Dataset} {key : Solution}

namespace IsSeparated

variable (hs : s.IsSeparated)
include hs

theorem eval_groups : s.groups.eval { store := store, data := data } =
    (s.keys store data).val.map (s.countRow store data) := by
  classical
  have hkeys : Sparql.groupKeys s.groupBy (s.documents.eval { store := store, data := data }) =
      (s.keys store data).val := by
    rw [Sparql.groupKeys, if_neg hs.groupBy_ne_nil]
    refine (Multiset.Nodup.ext (Multiset.nodup_dedup _) (s.keys store data).nodup).mpr fun k => ?_
    rw [Multiset.mem_dedup, Multiset.mem_map, Finset.mem_val, hs.mem_keys]
  have hsome : s.groupBy.isEmpty = false := List.isEmpty_eq_false_iff.mpr hs.groupBy_ne_nil
  rw [groups]
  simp only [hsome, Bool.and_false, Bool.false_eq_true, if_false]
  rw [Pattern.eval, hkeys]
  rfl

omit hs in
open scoped Classical in
/-- The documents of a group are counted once each. -/
theorem eval_count (v : Variable) :
    (Aggregate.reduce .count (.var rootVariable) true).eval { store := store, data := data } v key
        ((s.documents.eval { store := store, data := data }).filter
          fun μ => μ.restrict s.groupBy = key) =
      some (.literal (.ofInt (s.documentsOf store data key).card)) := by
  have hdocuments : (((s.documents.eval { store := store, data := data }).filter
      fun μ => μ.restrict s.groupBy = key).filterMap
        ((Expr.var rootVariable).eval { store := store, data := data })).dedup =
      (s.documentsOf store data key).val := by
    refine (Multiset.Nodup.ext (Multiset.nodup_dedup _) (Finset.nodup _)).mpr fun r => ?_
    rw [Multiset.mem_dedup, Multiset.mem_filterMap, Finset.mem_val, mem_documentsOf, mem_members]
    simp only [Multiset.mem_filter, and_assoc]
    rfl
  rw [Aggregate.eval, if_pos rfl, hdocuments]
  rfl

theorem nodup_counts : ((s.columns.filterMap Column.ofDocuments?).map Prod.fst).Nodup := by
  rw [List.map_filterMap]
  exact Column.nodup_filterMap hs.nodup_variables fun _ _ => Column.mem_variables_of_count?

theorem nodup_results : ((s.columns.filterMap Column.reduced?).map Reduced.result).Nodup := by
  rw [List.map_filterMap]
  exact Column.nodup_filterMap hs.nodup_variables fun _ _ => Column.mem_variables_of_result?

theorem nodup_texts : ((s.columns.filterMap Column.wrapping?).map Wrapping.result).Nodup := by
  rw [List.map_filterMap]
  exact Column.nodup_filterMap hs.nodup_variables fun _ _ => Column.mem_variables_of_text?

theorem countRow_of_mem {column : Column} {v : Variable} (hcolumn : column ∈ s.columns)
    (hv : v ∈ column.variables) (hne : column.count? ≠ some v) :
    s.countRow store data key v = key v := by
  refine Aggregate.bindAll_of_notMem ?_
  rw [List.map_filterMap]
  exact Column.notMem_filterMap hs.nodup_variables (fun _ _ => Column.mem_variables_of_count?)
    hcolumn hv hne

theorem reducedRow_of_mem {column : Column} {v : Variable} (hcolumn : column ∈ s.columns)
    (hv : v ∈ column.variables) (hne : column.result? ≠ some v) :
    s.reducedRow store data key v = s.countRow store data key v := by
  refine Solution.assignAll_of_notMem ?_
  rw [List.map_map]
  change v ∉ (s.columns.filterMap Column.reduced?).map Reduced.result
  rw [List.map_filterMap]
  exact Column.notMem_filterMap hs.nodup_variables (fun _ _ => Column.mem_variables_of_result?)
    hcolumn hv hne

theorem row_of_mem {column : Column} {v : Variable} (hcolumn : column ∈ s.columns)
    (hv : v ∈ column.variables) (hne : column.text? ≠ some v) :
    s.row store data key v = s.reducedRow store data key v := by
  refine Wrapping.wrapAll_of_notMem ?_
  rw [List.map_filterMap]
  exact Column.notMem_filterMap hs.nodup_variables (fun _ _ => Column.mem_variables_of_text?)
    hcolumn hv hne

/-- A row has the key of its group. -/
theorem hasKey_row : HasKey s.groupBy key (s.row store data key) := by
  intro v hv
  have hcolumn := hs.mem_groupBy.mp hv
  have hmem : v ∈ (Column.plain v).variables := List.mem_singleton_self v
  rw [hs.row_of_mem hcolumn hmem nofun, hs.reducedRow_of_mem hcolumn hmem nofun,
    hs.countRow_of_mem hcolumn hmem nofun]

/-- A variable of a value of a group is none of its key. -/
theorem key_eq_none {column : Column} {v : Variable} (hkey : IsKey s.groupBy key)
    (hcolumn : column ∈ s.columns) (hv : v ∈ column.variables) (hne : column.key? ≠ some v) :
    key v = none := by
  refine hkey.unbound v ?_
  rw [hs.groupBy_eq]
  exact Column.notMem_filterMap hs.nodup_variables (fun _ _ => Column.mem_variables_of_key?)
    hcolumn hv hne

/-- What a column reduces has its value in the row. -/
theorem reducedRow_result {column : Column} {red : Reduced} (hkey : IsKey s.groupBy key)
    (hcolumn : column ∈ s.columns) (hred : column.reduced? = some red) :
    s.reducedRow store data key red.result =
      red.value { store := store, data := data, graph := s.graph } key
        (s.documentsOf store data key) := by
  obtain ⟨hv, hcount, hne⟩ := Column.of_reduced? hred
  refine Solution.assignAll_of_mem ?_ ?_ ?_
  · rw [List.map_map]
    exact hs.nodup_results
  · exact List.mem_map.mpr ⟨red, List.mem_filterMap.mpr ⟨column, hcolumn, hred⟩, rfl⟩
  · rw [hs.countRow_of_mem hcolumn hv hcount, hs.key_eq_none hkey hcolumn hv hne]

/-- A row has the value of each column. -/
theorem row_carrier {column : Column} (hkey : IsKey s.groupBy key) (hcolumn : column ∈ s.columns) :
    s.row store data key column.carrier =
      column.value { store := store, data := data, graph := s.graph } key
        (s.documentsOf store data key) := by
  rcases column with v | ⟨v, a, _ | values⟩ | ⟨v, raw, encoded, packing, values⟩
  · exact hs.hasKey_row v (hs.mem_groupBy.mpr hcolumn)
  · have hv : v ∈ (Column.aggregate v a none).variables := List.mem_singleton_self v
    have hmem : (v, a) ∈ s.columns.filterMap Column.ofDocuments? :=
      List.mem_filterMap.mpr ⟨_, hcolumn, rfl⟩
    rw [Column.carrier, hs.row_of_mem hcolumn hv nofun, hs.reducedRow_of_mem hcolumn hv nofun,
      Selection.countRow, Aggregate.bindAll_of_mem hs.nodup_counts hmem
        (hs.key_eq_none hkey hcolumn hv nofun), hs.counts v a hcolumn, eval_count]
    rfl
  · rw [Column.carrier, hs.row_of_mem hcolumn (List.mem_singleton_self v) nofun]
    have hred : (Column.aggregate v a (some values)).reduced? = some ⟨v, a, values⟩ := rfl
    exact hs.reducedRow_result hkey hcolumn hred
  · have hmem : (⟨v, raw, packing⟩ : Wrapping) ∈ s.columns.filterMap Column.wrapping? :=
      List.mem_filterMap.mpr ⟨_, hcolumn, rfl⟩
    have hraws : ∀ w ∈ s.columns.filterMap Column.wrapping?,
        w.raw ∉ (s.columns.filterMap Column.wrapping?).map Wrapping.result := by
      intro w hw
      obtain ⟨column, hcolumn, hwrapping⟩ := List.mem_filterMap.mp hw
      rcases column with _ | _ | ⟨v, raw, encoded, packing, values⟩
      · cases hwrapping
      · cases hwrapping
      · obtain rfl := Option.some.inj hwrapping
        have hdistinct := (List.nodup_flatMap.mp (List.nodup_cons.mp hs.nodup).2).1 _ hcolumn
        have hne : v ≠ raw := fun he =>
          (List.nodup_cons.mp hdistinct).1 (List.mem_singleton.mpr he)
        rw [List.map_filterMap]
        exact Column.notMem_filterMap hs.nodup_variables (fun _ _ => Column.mem_variables_of_text?)
          hcolumn (List.mem_cons_of_mem _ (List.mem_singleton_self _)) fun he =>
            hne (Option.some.inj he)
    refine Wrapping.wrapAll_of_mem (w := ⟨v, raw, packing⟩) rfl hs.nodup_texts hraws hmem ?_
    exact hs.reducedRow_result hkey hcolumn rfl

/-- The rows of a grouped selection: one for each key. -/
theorem eval_grouped : s.grouped.eval { store := store, data := data } =
    (s.keys store data).val.map (s.row store data) := by
  set c : Context := { store := store, data := data }
  have hcolumns : ∀ r ∈ s.columns.filterMap Column.reduced?, ∃ column ∈ s.columns,
      column.reduced? = some r := fun r hr => List.mem_filterMap.mp hr
  have hreductions : ∀ ss : Solutions, ∀ r ∈ s.columns.filterMap Column.reduced?,
      join ss ((s.reduction r).eval c) = join ss ((s.keys store data).val.map fun key =>
        key.assign r.result (r.value { store := store, data := data, graph := s.graph } key
          (s.documentsOf store data key))) := by
    intro ss r hr
    obtain ⟨column, hcolumn, hred⟩ := hcolumns r hr
    rw [hs.eval_reduction (hs.reduced column hcolumn r hred)]
  rw [grouped, eval_foldl_around, eval_foldl_joined, hs.eval_groups,
    List.foldl_ext _ _ _ hreductions, Solutions.foldl_join_keyed (s.keys store data).nodup
      (fun key hkey => hs.isKey hkey) hs.nodup_results]
  · exact Wrapping.foldl_map_extended _ _
  · intro r hr
    obtain ⟨column, hcolumn, hred⟩ := hcolumns r hr
    obtain ⟨hv, -, hkey⟩ := Column.of_reduced? hred
    rw [hs.groupBy_eq]
    exact Column.notMem_filterMap hs.nodup_variables (fun _ _ => Column.mem_variables_of_key?)
      hcolumn hv hkey
  · exact fun key _ v hv =>
      hs.countRow_of_mem (hs.mem_groupBy.mp hv) (List.mem_singleton_self v) nofun
  · intro key hkey r hr
    obtain ⟨column, hcolumn, hred⟩ := hcolumns r hr
    obtain ⟨hv, hcount, hne⟩ := Column.of_reduced? hred
    rw [hs.countRow_of_mem hcolumn hv hcount, hs.key_eq_none (hs.isKey hkey) hcolumn hv hne]

end IsSeparated

/-- Whether some rows are those of the groups: one for each key of the documents, which binds
the key, and has the value of every column for the documents of the key. -/
structure AreGroups (s : Selection) (store : Store) (data : Dataset) (rows : Solutions) : Prop where
  keys : rows.map (·.restrict s.groupBy) = (s.keys store data).val
  bound : ∀ row ∈ rows, ∀ v ∈ s.groupBy, row.IsBound v
  columns : ∀ row ∈ rows, ∀ column ∈ s.columns, row column.carrier =
    column.value { store := store, data := data, graph := s.graph } (row.restrict s.groupBy)
      (s.documentsOf store data (row.restrict s.groupBy))

/-- The rows of a grouped selection are those of its groups. -/
theorem IsSeparated.areGroups (hs : s.IsSeparated) (store : Store) (data : Dataset) :
    s.AreGroups store data (s.grouped.eval { store := store, data := data }) := by
  have hrestrict : ∀ key ∈ s.keys store data, (s.row store data key).restrict s.groupBy = key :=
    fun key hkey => hs.hasKey_row.restrict_eq (hs.isKey hkey)
  rw [hs.eval_grouped]
  refine ⟨?_, fun row hrow v hv => ?_, fun row hrow column hcolumn => ?_⟩
  · rw [Multiset.map_map]
    exact (Multiset.map_congr rfl hrestrict).trans (Multiset.map_id _)
  · obtain ⟨key, hkey, rfl⟩ := Multiset.mem_map.mp hrow
    obtain ⟨t, ht⟩ := (hs.isKey hkey).bound v hv
    exact ⟨t, (hs.hasKey_row v hv).trans ht⟩
  · obtain ⟨key, hkey, rfl⟩ := Multiset.mem_map.mp hrow
    rw [hrestrict key hkey]
    exact hs.row_carrier (hs.isKey hkey) hcolumn

theorem AreGroups.exists_row {rows : Solutions} (h : s.AreGroups store data rows)
    (hkey : key ∈ s.keys store data) : ∃ row ∈ rows, row.restrict s.groupBy = key := by
  refine Multiset.mem_map.mp ?_
  rw [h.keys]
  exact hkey

/-- The value of a column depends on the members of the groups only, and not on the other
columns. -/
theorem AreGroups.column_eq {s' : Selection} {rows rows' : Solutions} {row row' : Solution}
    {column : Column} (h : s.AreGroups store data rows) (h' : s'.AreGroups store data rows')
    (hgraph : s'.graph = s.graph) (hmembers : s'.members store data = s.members store data)
    (hcolumn : column ∈ s.columns) (hcolumn' : column ∈ s'.columns) (hrow : row ∈ rows)
    (hrow' : row' ∈ rows') (hkey : row'.restrict s'.groupBy = row.restrict s.groupBy) :
    row' column.carrier = row column.carrier := by
  rw [h.columns row hrow column hcolumn, h'.columns row' hrow' column hcolumn', hkey, hgraph,
    documentsOf, documentsOf, hmembers]

end Selection

end DocGraph
