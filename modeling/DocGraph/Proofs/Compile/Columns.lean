import DocGraph.Compile.Query
import DocGraph.Proofs.Column.Variables
import DocGraph.Proofs.Dict

/-!
# What a query is compiled to

The selection of a query has one column for each of its sources, its fields and then
its aggregates (`Projection.compile_eq_ok`, `Spec.compile_eq_ok`), whose names are
different (`Spec.nodup_columnNames`). A source has a path of its own only, so what its
column is made of does not depend on the others. A column of objects has a block and a
fragment for each of its members (`Projection.memberParts_eq_ok`).
-/

namespace DocGraph

open Rdf (Iri Variable rdfType)
open Sparql (SortKey)

/-- What a column is asked for by. -/
inductive ColumnSource where
  | field (selector : Selector)
  | aggregate (a : Aggregation)

/-- What a source is compiled to under a name. -/
def ColumnSource.compile (s : Schema) (model name : String) :
    ColumnSource → Outcome CompiledColumn
  | .field selector => Projection.fieldColumn s model name selector
  | .aggregate a => Projection.aggregateColumn s model name a

namespace Spec

variable {s : Schema} {model : String} {q q' : Spec}

/-- Whether the dictionaries of a query are in order. -/
structure IsOrdered (q : Spec) : Prop where
  fields : Dict.IsSorted q.fields
  aggregates : Dict.IsSorted q.aggregates

/-- The names of the columns: those of the fields and aggregates, and of the identifier if
there are none. -/
def columnNames (q : Spec) : List String :=
  if q.fields.isEmpty && q.aggregates.isEmpty then [idKey] else q.names

theorem isFieldName_of_validateNames (h : q.validateNames = .ok ()) :
    ∀ name ∈ q.names, isFieldName name = true := by
  unfold validateNames at h
  split at h
  · cases h
  · next hfind =>
    intro name hname
    simpa using List.find?_eq_none.mp hfind name hname

theorem notMem_aggregates_of_validateNames (h : q.validateNames = .ok ()) {name : String}
    (hname : name ∈ Dict.keys q.fields) : name ∉ Dict.keys q.aggregates := by
  unfold validateNames at h
  split at h
  · cases h
  · split at h
    · cases h
    · next hfind =>
      have hcontains := List.find?_eq_none.mp hfind name hname
      intro hmem
      exact hcontains (Dict.contains_iff.mpr hmem)

theorem isFieldName_of_mem_columnNames (h : q.validateNames = .ok ()) :
    ∀ name ∈ q.columnNames, isFieldName name = true := by
  unfold columnNames
  split
  · rw [List.forall_mem_singleton]
    decide
  · exact isFieldName_of_validateNames h

theorem hasName_iff {name : String} : q.hasName name = true ↔ name ∈ q.names := by
  rw [hasName, Bool.or_eq_true, Dict.contains_iff, Dict.contains_iff, names, List.mem_append]

/-- The sort targets are checked to be names of fields and aggregates. -/
theorem succeeds_checkSort : Outcome.Succeeds q.checkSort ↔ ∀ d ∈ q.sort, d.target ∈ q.names := by
  unfold checkSort
  split
  · next d hd =>
    refine iff_of_false (Outcome.not_succeeds_error _) fun h => ?_
    have hno := List.find?_some hd
    rw [hasName_iff.mpr (h d (List.mem_of_find?_eq_some hd))] at hno
    cases hno
  · next hnone =>
    refine iff_of_true (Outcome.succeeds_ok _) fun d hd => hasName_iff.mp ?_
    simpa using List.find?_eq_none.mp hnone d hd

/-- The names of the columns are different. -/
theorem nodup_columnNames (hq : q.IsOrdered) (h : q.validateNames = .ok ()) :
    q.columnNames.Nodup := by
  unfold columnNames
  split
  · exact List.nodup_cons.mpr ⟨List.not_mem_nil, List.nodup_nil⟩
  · rw [names, List.nodup_append]
    exact ⟨hq.fields.nodup, hq.aggregates.nodup, fun name hname other hother he =>
      notMem_aggregates_of_validateNames h hname (he ▸ hother)⟩

theorem keys_normalizedFields {fields fields' : Dict Selector}
    (h : normalizedFields s model fields = .ok fields') :
    Dict.keys fields' = Dict.keys fields := by
  refine Dict.keys_of_mapM h fun e e' he => ?_
  obtain ⟨selector, -, he⟩ := Outcome.bind_eq_ok.mp he
  rw [← Except.ok.inj he]

/-- Normalising a query gives the names of its columns to its fields and aggregates, and
changes nothing but its fields. -/
theorem normalized_eq_ok (h : q.normalized s model = .ok q') :
    ∃ fields, q' = { q with fields := fields } ∧ q'.names = q.columnNames := by
  obtain ⟨fields, hfields, h⟩ := Outcome.bind_eq_ok.mp h
  refine ⟨fields, (Except.ok.inj h).symm, ?_⟩
  rw [← Except.ok.inj h, names, keys_normalizedFields hfields, columnNames]
  by_cases hempty : (q.fields.isEmpty && q.aggregates.isEmpty) = true
  · rw [if_pos hempty, if_pos hempty]
    rw [Bool.and_eq_true, List.isEmpty_iff, List.isEmpty_iff] at hempty
    change [idKey] ++ Dict.keys q.aggregates = _
    rw [hempty.2]
    rfl
  · rw [if_neg hempty, if_neg hempty]
    rfl

/-- The sources of the columns, under their names. -/
def sources (q : Spec) : List (String × ColumnSource) :=
  q.fields.map (fun e => (e.1, .field e.2)) ++ q.aggregates.map fun e => (e.1, .aggregate e.2)

theorem map_fst_sources (q : Spec) : q.sources.map Prod.fst = q.names := by
  rw [sources, List.map_append, List.map_map, List.map_map]
  rfl

/-- The names of the sources of a normalised query are names of fields. -/
theorem isFieldName_of_mem_sources (h : q.validateNames = .ok ())
    (hnormal : q.normalized s model = .ok q') : ∀ e ∈ q'.sources, isFieldName e.1 = true := by
  obtain ⟨fields, -, hnames⟩ := normalized_eq_ok hnormal
  rw [← map_fst_sources] at hnames
  exact fun e he => isFieldName_of_mem_columnNames h e.1 (hnames ▸ List.mem_map_of_mem he)

end Spec

/-! ## Inversion -/

open Sparql (Expr)

/-- The fragments that an object is concatenated from, from its member at an index on. -/
def objectFragments (index : Nat) : List (String × Expr) → List Expr
  | [] => [.string Packing.objectEnd]
  | (key, value) :: rest =>
    .string (Packing.memberStart index key) ::
      .coalesce [Projection.encoded value, .string ""] :: objectFragments (index + 1) rest

/-- What the member of an object is compiled to: the hops that lead to it from its object, and
its value. -/
structure CompiledMember where
  key : String
  hops : List Element
  value : Expr

namespace CompiledMember

/-- Whether a member of the objects at a path is compiled to this. -/
structure IsOf (s : Schema) (model : String) (property : Path) (m : String × Path)
    (c : CompiledMember) : Prop where
  key : c.key = m.1
  hops : Projection.hopsAfter s model (property ++ m.2) property.length = .ok c.hops
  value : Projection.valueAt s model (property ++ m.2) = .ok c.value

/-- The optional blocks of the members that have hops. -/
def blocks (compiled : List CompiledMember) : List Element :=
  (compiled.filter (!·.hops.isEmpty)).map (.optional ·.hops)

theorem keys_eq {s : Schema} {model : String} {property : Path} {members : Dict Path}
    {compiled : List CompiledMember} (h : List.Forall₂ (IsOf s model property) members compiled) :
    compiled.map key = Dict.keys members := by
  induction h with
  | nil => rfl
  | cons hc _ ih => rw [List.map_cons, Dict.keys_cons, ih, hc.key]

end CompiledMember

namespace Projection

variable {s : Schema} {model name : String} {output : Variable} {c : CompiledColumn}

theorem valuesColumn_eq_ok {path : Path} (h : valuesColumn s model name output path = .ok c) :
    ∃ v packed hops value, fieldVariable .encoded name = .ok v ∧
      fieldVariable .packed name = .ok packed ∧ hopsAfter s model path 0 = .ok hops ∧
      valueAt s model path = .ok value ∧
      c = {
        column := .packed output packed v .values (hops ++ [.bind v (encoded value)])
        binding := none
        projected := some path } := by
  obtain ⟨v, hv, h⟩ := Outcome.bind_eq_ok.mp h
  obtain ⟨hops, hhops, h⟩ := Outcome.bind_eq_ok.mp h
  obtain ⟨value, hvalue, h⟩ := Outcome.bind_eq_ok.mp h
  obtain ⟨packed, hpacked, h⟩ := Outcome.bind_eq_ok.mp h
  exact ⟨v, packed, hops, value, hv, hpacked, hhops, hvalue, (Except.ok.inj h).symm⟩

theorem memberParts_eq_ok {property : Path} {index : Nat} {members : Dict Path}
    {elements : List Element} {fragments : List Expr}
    (h : memberParts s model property index members = .ok (elements, fragments)) :
    ∃ compiled, List.Forall₂ (CompiledMember.IsOf s model property) members compiled ∧
      elements = CompiledMember.blocks compiled ∧
      fragments = objectFragments index (compiled.map fun m => (m.key, m.value)) := by
  induction members generalizing index elements fragments with
  | nil =>
    obtain ⟨rfl, rfl⟩ := Prod.mk.inj (Except.ok.inj h)
    exact ⟨[], .nil, rfl, rfl⟩
  | cons m rest ih =>
    obtain ⟨hops, hhops, h⟩ := Outcome.bind_eq_ok.mp h
    obtain ⟨value, hvalue, h⟩ := Outcome.bind_eq_ok.mp h
    obtain ⟨⟨others, further⟩, hrest, h⟩ := Outcome.bind_eq_ok.mp h
    obtain ⟨rfl, rfl⟩ := Prod.mk.inj (Except.ok.inj h)
    obtain ⟨compiled, hcompiled, rfl, rfl⟩ := ih hrest
    refine ⟨⟨m.1, hops, value⟩ :: compiled, .cons ⟨rfl, hhops, hvalue⟩ hcompiled, ?_, rfl⟩
    rw [CompiledMember.blocks, CompiledMember.blocks, List.filter_cons]
    cases hops <;> rfl

theorem objectsColumn_eq_ok {property : Path} {members : Dict Path}
    (h : objectsColumn s model name output property members = .ok c) :
    ∃ v packed hops compiled, fieldVariable .encoded name = .ok v ∧
      fieldVariable .packed name = .ok packed ∧ hopsAfter s model property 0 = .ok hops ∧
      List.Forall₂ (CompiledMember.IsOf s model property) members compiled ∧
      c = {
        column := .packed output packed v .objects (hops ++ CompiledMember.blocks compiled ++
          [.bind v (.call .concat (objectFragments 0 (compiled.map fun m => (m.key, m.value))))])
        binding := none
        projected := some property } := by
  obtain ⟨hops, hhops, h⟩ := Outcome.bind_eq_ok.mp h
  obtain ⟨⟨elements, fragments⟩, hparts, h⟩ := Outcome.bind_eq_ok.mp h
  obtain ⟨v, hv, h⟩ := Outcome.bind_eq_ok.mp h
  obtain ⟨packed, hpacked, h⟩ := Outcome.bind_eq_ok.mp h
  obtain ⟨compiled, hcompiled, rfl, rfl⟩ := memberParts_eq_ok hparts
  exact ⟨v, packed, hops, compiled, hv, hpacked, hhops, hcompiled, (Except.ok.inj h).symm⟩

theorem reducedColumn_eq_ok {path : Path} {r : Sparql.Reduction} {distinct : Bool}
    (h : reducedColumn s model output path r distinct = .ok c) :
    ∃ value hops, valueAt s model path = .ok value ∧ hopsAfter s model path 0 = .ok hops ∧
      c = {
        column := .aggregate output (.reduce r value distinct) (some hops)
        binding := none
        projected := some path } := by
  obtain ⟨value, hvalue, h⟩ := Outcome.bind_eq_ok.mp h
  obtain ⟨hops, hhops, h⟩ := Outcome.bind_eq_ok.mp h
  exact ⟨value, hops, hvalue, hhops, (Except.ok.inj h).symm⟩

/-- An aggregate counts the documents, or the values of its path are reduced or packed. -/
theorem aggregateColumn_cases {a : Aggregation} (h : aggregateColumn s model name a = .ok c) :
    ∃ output, outputVariable name = .ok output ∧ (c = countColumn output ∨ ∃ path,
      (∃ r, reducedColumn s model output path r a.distinct = .ok c) ∨
      valuesColumn s model name output path = .ok c ∨
      objectsColumn s model name output path a.members = .ok c) := by
  obtain ⟨output, houtput, h⟩ := Outcome.bind_eq_ok.mp h
  refine ⟨output, houtput, ?_⟩
  obtain ⟨aggregator, property, members, distinct⟩ := a
  cases property with
  | none => exact .inl (Except.ok.inj h).symm
  | some path =>
    refine .inr ⟨path, ?_⟩
    cases aggregator with
    | count | sum | avg | min | max => exact .inl ⟨_, h⟩
    | array =>
      dsimp only at h
      split at h
      · exact .inr (.inl h)
      · exact .inr (.inr h)
    | object => exact .inr (.inr h)

end Projection

/-- The columns of a projection are those of the sources. -/
theorem Projection.compile_eq_ok {s : Schema} {model : String} {q : Spec} {p : Projection}
    (h : compile s model q = .ok p) :
    ∃ ts compiled, targets s model q.fields = .ok ts ∧
      PathPrefix.hops s (requiredHops ts) = .ok p.required ∧
      optionalElements s ts = .ok p.optionals ∧
      List.Forall₂ (fun e c => e.2.compile s model e.1 = .ok c) q.sources compiled ∧
      p.bindings = compiled.filterMap (·.binding) ∧ p.columns = compiled.map (·.column) ∧
      p.projected = compiled.filterMap (·.projected) := by
  obtain ⟨ts, hts, h⟩ := Outcome.bind_eq_ok.mp h
  obtain ⟨required, hrequired, h⟩ := Outcome.bind_eq_ok.mp h
  obtain ⟨optionals, hoptionals, h⟩ := Outcome.bind_eq_ok.mp h
  obtain ⟨fields, hfields, h⟩ := Outcome.bind_eq_ok.mp h
  obtain ⟨aggregates, haggregates, h⟩ := Outcome.bind_eq_ok.mp h
  obtain rfl := Except.ok.inj h
  refine ⟨ts, fields ++ aggregates, hts, hrequired, hoptionals, ?_, rfl, rfl, rfl⟩
  rw [Spec.sources]
  exact List.rel_append (List.forall₂_map_left_iff.mpr (Outcome.mapM_eq_ok.mp hfields))
    (List.forall₂_map_left_iff.mpr (Outcome.mapM_eq_ok.mp haggregates))

/-- The selection of a query is that of its columns, its filter and its sort keys. -/
theorem Spec.compile_eq_ok {s : Schema} {model : String} {q : Spec} {options : CompileOptions}
    {sel : Selection} (h : q.compile s options model = .ok sel) :
    ∃ q' classUri p filters orderBy, q.validateNames = .ok () ∧ q.normalized s model = .ok q' ∧
      s.classUri model = .ok classUri ∧ Projection.compile s model q' = .ok p ∧
      q'.filterElements ⟨s, model, p.projected, options.fullText⟩ = .ok filters ∧
      sel = {
        columns := p.columns
        required := .statement rootNode rdfType (.term (.iri classUri)) :: p.required
        filters := filters
        optionals := p.optionals
        bindings := p.bindings
        groupBy := if p.columns.any Column.isAggregated then
          p.columns.filterMap Column.key? else []
        orderBy := orderBy
        limit := q'.limit
        offset := q'.offset.getD 0
        distinct := q'.distinct
        graph := options.graph } := by
  obtain ⟨⟨⟩, hvalid, h⟩ := Outcome.bind_eq_ok.mp h
  obtain ⟨q', hnormal, h⟩ := Outcome.bind_eq_ok.mp h
  obtain ⟨classUri, hclass, h⟩ := Outcome.bind_eq_ok.mp h
  obtain ⟨-, -, h⟩ := Outcome.bind_eq_ok.mp h
  obtain ⟨p, hp, h⟩ := Outcome.bind_eq_ok.mp h
  obtain ⟨filters, hfilters, h⟩ := Outcome.bind_eq_ok.mp h
  obtain ⟨orderBy, -, h⟩ := Outcome.bind_eq_ok.mp h
  exact ⟨q', classUri, p, filters, orderBy, hvalid, hnormal, hclass, hp, hfilters,
    (Except.ok.inj h).symm⟩

theorem Spec.graph_of_compile {s : Schema} {model : String} {q : Spec} {options : CompileOptions}
    {sel : Selection} (h : q.compile s options model = .ok sel) : sel.graph = options.graph := by
  obtain ⟨q', classUri, p, filters, orderBy, -, -, -, -, -, rfl⟩ := compile_eq_ok h
  rfl

end DocGraph
