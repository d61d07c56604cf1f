import DocGraph.Proofs.Compile.Columns
import DocGraph.Proofs.Compile.Prefixes
import DocGraph.Proofs.Select.Members

/-!
# Separate columns

The columns of a grouped query that is compiled share the keys and nothing else
(`Spec.isSeparated_of_compile`): the values of a column have variables of their own, and
every document has a value for each key.
-/

namespace DocGraph

open Rdf (Variable rdfType)
open Sparql (Context Expr Node Solution)

variable {s : Schema} {model name : String} {c : CompiledColumn} {output : Variable}

/-! ## Columns -/

/-- Whether a variable is that of a column or of its packed texts. -/
def IsOfColumn (name : String) (v : Variable) : Prop :=
  pieces v = Text.split '.' name ∨ pieces v = "_g" :: Text.split '.' name

/-- What the column of a field or an aggregate has of its own: its variables, and the
variables of its values, which are no columns. -/
structure CompiledColumn.IsSeparated (name : String) (c : CompiledColumn) : Prop where
  pieces : ∀ v ∈ c.column.variables, IsOfColumn name v
  nodup : c.column.variables.Nodup
  key : ∀ v, c.column.key? = some v → outputVariable name = .ok v
  counts : ∀ v a, c.column = .aggregate v a none → a = .reduce .count (.var rootVariable) true
  reduced : ∀ r, c.column.reduced? = some r → ∀ keys : List Variable,
    (∀ v ∈ keys, ¬IsInternal v) → r.IsSeparated keys

theorem mem_variables_blocks {compiled : List CompiledMember} {w : Variable} :
    w ∈ elementVariables (CompiledMember.blocks compiled) ↔
      ∃ m ∈ compiled, w ∈ elementVariables m.hops := by
  rw [mem_elementVariables]
  constructor
  · rintro ⟨e, he, hw⟩
    obtain ⟨m, hm, rfl⟩ := List.mem_map.mp he
    exact ⟨m, List.mem_of_mem_filter hm, hw⟩
  · rintro ⟨m, hm, hw⟩
    refine ⟨.optional m.hops, List.mem_map_of_mem (List.mem_filter.mpr ⟨hm, ?_⟩), hw⟩
    rw [List.isEmpty_eq_false_iff.mpr (fun hnil => by rw [hnil] at hw; cases hw)]
    rfl

section Columns

variable (hname : isFieldName name = true) (houtput : outputVariable name = .ok output)
include hname houtput

theorem isSeparated_packed {packed encoded : Variable} {packing : Packing} {values : List Element}
    {binding : Option Element} {projected : Option Path}
    (hpacked : fieldVariable .packed name = .ok packed)
    (hencoded : fieldVariable .encoded name = .ok encoded)
    (hvalues : ∀ v ∈ elementVariables values, IsInternal v) :
    CompiledColumn.IsSeparated name
      ⟨.packed output packed encoded packing values, binding, projected⟩ := by
  have hcarrier := pieces_of_outputVariable hname houtput
  have hraw := pieces_of_fieldVariable rfl hname hpacked
  refine ⟨fun v hv => ?_, ?_, nofun, nofun, fun r hr keys hkeys => ?_⟩
  · rcases List.mem_cons.mp hv with rfl | hv
    · exact .inl hcarrier
    · rw [List.mem_singleton.mp hv]
      exact .inr hraw
  · refine List.nodup_cons.mpr ⟨fun hmem => ?_, List.nodup_singleton packed⟩
    have hinternal : IsInternal packed := isInternal_of_fieldVariable rfl hname hpacked
    rw [← List.mem_singleton.mp hmem] at hinternal
    exact not_isInternal_of_outputVariable hname houtput hinternal
  · obtain rfl := Option.some.inj hr
    refine ⟨fun v hv hkey => hkeys v hkey (hvalues v hv), _, _, _, rfl, .inl ⟨encoded, rfl, ?_, ?_⟩⟩
    · exact fun hkey => hkeys encoded hkey (isInternal_of_fieldVariable rfl hname hencoded)
    · rintro rfl
      exact absurd (owns_fieldVariable rfl hname hencoded) (Role.not_owns_root .encoded 0)

theorem isSeparated_valuesColumn (hs : s.WellFormed) {path : Path}
    (h : Projection.valuesColumn s model name output path = .ok c) : c.IsSeparated name := by
  obtain ⟨encoded, packed, hops, value, hencoded, hpacked, hhops, -, rfl⟩ :=
    Projection.valuesColumn_eq_ok h
  refine isSeparated_packed hname houtput hpacked hencoded fun v hv => ?_
  rw [elementVariables_append, List.mem_append] at hv
  rcases hv with hv | hv
  · exact isInternal_hopsAfter hs hhops v hv
  · rw [List.mem_singleton.mp hv]
    exact isInternal_of_fieldVariable rfl hname hencoded

omit hname houtput in
theorem isNode_blocks (hs : s.WellFormed) {property : Path} {members : Dict Path}
    {compiled : List CompiledMember}
    (h : List.Forall₂ (CompiledMember.IsOf s model property) members compiled) :
    ∀ v ∈ elementVariables (CompiledMember.blocks compiled), IsNode v := by
  intro v hv
  obtain ⟨m, hm, hv⟩ := mem_variables_blocks.mp hv
  obtain ⟨member, -, hof⟩ := exists_left_of_mem h hm
  exact isNode_hopsAfter hs hof.hops v hv

theorem isSeparated_objectsColumn (hs : s.WellFormed) {property : Path} {members : Dict Path}
    (h : Projection.objectsColumn s model name output property members = .ok c) :
    c.IsSeparated name := by
  obtain ⟨encoded, packed, hops, compiled, hencoded, hpacked, hhops, hcompiled, rfl⟩ :=
    Projection.objectsColumn_eq_ok h
  refine isSeparated_packed hname houtput hpacked hencoded fun v hv => ?_
  rw [elementVariables_append, elementVariables_append, List.mem_append, List.mem_append] at hv
  rcases hv with (hv | hv) | hv
  · exact isInternal_hopsAfter hs hhops v hv
  · exact (isNode_blocks hs hcompiled v hv).isInternal
  · rw [List.mem_singleton.mp hv]
    exact isInternal_of_fieldVariable rfl hname hencoded

theorem isSeparated_scalarColumn {field : FieldPath}
    (h : Projection.scalarColumn s model output field = .ok c) : c.IsSeparated name := by
  obtain ⟨value, -, h⟩ := Outcome.bind_eq_ok.mp h
  obtain rfl := Except.ok.inj h
  refine ⟨fun v hv => ?_, List.nodup_singleton output, fun v hv => ?_, nofun, nofun⟩
  · rw [List.mem_singleton.mp hv]
    exact .inl (pieces_of_outputVariable hname houtput)
  · rw [← Option.some.inj hv, houtput]

theorem isSeparated_countColumn : (Projection.countColumn output).IsSeparated name := by
  refine ⟨fun v hv => ?_, List.nodup_singleton output, nofun, fun v a h => ?_, nofun⟩
  · rw [List.mem_singleton.mp hv]
    exact .inl (pieces_of_outputVariable hname houtput)
  · exact (Column.aggregate.inj h).2.1.symm

theorem isSeparated_reducedColumn (hs : s.WellFormed) {path : Path} {r : Sparql.Reduction}
    {distinct : Bool} (h : Projection.reducedColumn s model output path r distinct = .ok c) :
    c.IsSeparated name := by
  obtain ⟨value, hops, hvalue, hhops, rfl⟩ := Projection.reducedColumn_eq_ok h
  refine ⟨fun v hv => ?_, List.nodup_singleton output, nofun, nofun, fun r hr keys hkeys => ?_⟩
  · rw [List.mem_singleton.mp hv]
    exact .inl (pieces_of_outputVariable hname houtput)
  · obtain rfl := Option.some.inj hr
    refine ⟨fun v hv hkey => hkeys v hkey (isInternal_hopsAfter hs hhops v hv), _, _, _, rfl, ?_⟩
    rcases value_cases hs hvalue hhops with ⟨v, rfl, hv, hne⟩ | ⟨rfl, rfl | ⟨i, rfl⟩⟩
    · exact .inl ⟨v, rfl, fun hkey => hkeys v hkey hv, fun hroot => absurd hroot hne⟩
    · exact .inl ⟨_, rfl, fun hkey => hkeys _ hkey isInternal_rootVariable, fun _ => rfl⟩
    · exact .inr ⟨i, rfl, rfl⟩

end Columns

/-- The column of a field or an aggregate has variables of its own. -/
theorem ColumnSource.isSeparated_of_compile (hs : s.WellFormed) (hname : isFieldName name = true)
    {source : ColumnSource} (h : source.compile s model name = .ok c) : c.IsSeparated name := by
  cases source with
  | field selector =>
    obtain ⟨output, houtput, h⟩ := Outcome.bind_eq_ok.mp h
    cases selector with
    | scalar field => exact isSeparated_scalarColumn hname houtput h
    | array field => exact isSeparated_valuesColumn hname houtput hs h
    | objects property members => exact isSeparated_objectsColumn hname houtput hs h
  | aggregate a =>
    obtain ⟨output, houtput, rfl | ⟨path, ⟨r, h⟩ | h | h⟩⟩ := Projection.aggregateColumn_cases h
    · exact isSeparated_countColumn hname houtput
    · exact isSeparated_reducedColumn hname houtput hs h
    · exact isSeparated_valuesColumn hname houtput hs h
    · exact isSeparated_objectsColumn hname houtput hs h

/-! ## All columns -/

theorem IsOfColumn.ne {name' : String} {v v' : Variable} (hname : isFieldName name = true)
    (hname' : isFieldName name' = true) (hne : name ≠ name') (h : IsOfColumn name v)
    (h' : IsOfColumn name' v') : v ≠ v' := by
  rintro rfl
  have hsplit (h : Text.split '.' name = Text.split '.' name') : False :=
    hne (by rw [← Text.join_split '.' name, h, Text.join_split])
  have htag {name : String} {rest : List String} (hname : isFieldName name = true)
      (h : Text.split '.' name = "_g" :: rest) : False := by
    have hsegment : isFieldSegment "_g" = true :=
      List.all_eq_true.mp hname "_g" (h ▸ List.mem_cons_self)
    exact absurd hsegment (by decide)
  rcases h with h | h <;> rcases h' with h' | h'
  · exact hsplit (h.symm.trans h')
  · exact htag hname (h.symm.trans h')
  · exact htag hname' (h'.symm.trans h)
  · exact hsplit (List.cons.inj (h.symm.trans h')).2

theorem IsOfColumn.ne_rootVariable {v : Variable} (hname : isFieldName name = true)
    (h : IsOfColumn name v) : v ≠ rootVariable := by
  rintro rfl
  rw [IsOfColumn, pieces_rootVariable] at h
  rcases h with h | h
  · have hsegment : isFieldSegment rootName = true :=
      List.all_eq_true.mp hname rootName (h ▸ List.mem_cons_self)
    exact absurd hsegment (by decide)
  · exact absurd (List.cons.inj h).1 (by decide)

/-- The columns of different names have different variables. -/
theorem nodup_columns {sources : List (String × ColumnSource)} {compiled : List CompiledColumn}
    (h : List.Forall₂ (fun e c => CompiledColumn.IsSeparated e.1 c) sources compiled)
    (hnames : ∀ e ∈ sources, isFieldName e.1 = true) (hdistinct : (sources.map Prod.fst).Nodup) :
    ((compiled.map (·.column)).flatMap Column.variables).Nodup := by
  induction h with
  | nil => exact .nil
  | @cons e c sources compiled hc hrest ih =>
    rw [List.forall_mem_cons] at hnames
    rw [List.map_cons, List.nodup_cons] at hdistinct
    rw [List.map_cons, List.flatMap_cons, List.nodup_append]
    refine ⟨hc.nodup, ih hnames.2 hdistinct.2, fun v hv v' hv' => ?_⟩
    obtain ⟨column, hcolumn, hv'⟩ := List.mem_flatMap.mp hv'
    obtain ⟨c', hc', rfl⟩ := List.mem_map.mp hcolumn
    obtain ⟨e', he', hc'⟩ := exists_left_of_mem hrest hc'
    refine IsOfColumn.ne hnames.1 (hnames.2 e' he') (fun hname => hdistinct.1 ?_)
      (hc.pieces v hv) (hc'.pieces v' hv')
    rw [hname]
    exact List.mem_map_of_mem he'

/-! ## Bound keys -/

/-- Whether a column is a value of a group: it is no key, and the document pattern binds
nothing for it. -/
structure CompiledColumn.IsValue (c : CompiledColumn) : Prop where
  key : c.column.key? = none
  binding : c.binding = none

theorem isValue_valuesColumn {path : Path}
    (h : Projection.valuesColumn s model name output path = .ok c) : c.IsValue := by
  obtain ⟨encoded, packed, hops, value, -, -, -, -, rfl⟩ := Projection.valuesColumn_eq_ok h
  exact ⟨rfl, rfl⟩

theorem isValue_objectsColumn {property : Path} {members : Dict Path}
    (h : Projection.objectsColumn s model name output property members = .ok c) : c.IsValue := by
  obtain ⟨encoded, packed, hops, elements, fragments, -, -, -, -, rfl⟩ :=
    Projection.objectsColumn_eq_ok h
  exact ⟨rfl, rfl⟩

theorem isValue_aggregateColumn {a : Aggregation}
    (h : Projection.aggregateColumn s model name a = .ok c) : c.IsValue := by
  obtain ⟨output, -, rfl | ⟨path, ⟨r, h⟩ | h | h⟩⟩ := Projection.aggregateColumn_cases h
  · exact ⟨rfl, rfl⟩
  · obtain ⟨value, hops, -, -, rfl⟩ := Projection.reducedColumn_eq_ok h
    exact ⟨rfl, rfl⟩
  · exact isValue_valuesColumn h
  · exact isValue_objectsColumn h

/-- The path of a selector of one value. -/
def Selector.scalar? : Selector → Option FieldPath
  | .scalar field => some field
  | _ => none

/-- The path of a source that is compiled to a plain column. -/
def ColumnSource.scalar? : ColumnSource → Option FieldPath
  | .field selector => selector.scalar?
  | .aggregate _ => none

/-- Only a scalar field is no value of a group. -/
theorem isValue_of_compile {source : ColumnSource} (h : source.compile s model name = .ok c)
    (hsource : source.scalar? = none) : c.IsValue := by
  cases source with
  | aggregate a => exact isValue_aggregateColumn h
  | field selector =>
    obtain ⟨output, -, h⟩ := Outcome.bind_eq_ok.mp h
    cases selector with
    | scalar field => cases hsource
    | array field => exact isValue_valuesColumn h
    | objects property members => exact isValue_objectsColumn h

/-- A key is bound to the value of a scalar field. -/
theorem binding_of_compile {source : ColumnSource} {v : Variable}
    (h : source.compile s model name = .ok c) (hc : c.column.key? = some v) :
    ∃ field value, source = .field (.scalar field) ∧
      Projection.valueAt s model field.path = .ok value ∧
      c.binding = some (.bind v
        (if field.isOptional then .coalesce [value, .string ""] else value)) := by
  have hscalar : source.scalar? ≠ none := fun hnone => by
    rw [(isValue_of_compile h hnone).key] at hc
    cases hc
  rcases source with (field | field | ⟨property, members⟩) | a
  · obtain ⟨output, -, h⟩ := Outcome.bind_eq_ok.mp h
    obtain ⟨value, hvalue, h⟩ := Outcome.bind_eq_ok.mp h
    obtain rfl := Except.ok.inj h
    obtain rfl := Option.some.inj hc
    exact ⟨field, value, rfl, hvalue, rfl⟩
  · exact absurd rfl hscalar
  · exact absurd rfl hscalar
  · exact absurd rfl hscalar

theorem exists_eval_coalesce {ctx : Context} {μ : Solution} (e : Expr) (text : String) :
    ∃ t, (Expr.coalesce [e, .string text]).eval ctx μ = some t := by
  rw [Expr.eval, Expr.evalAll, Expr.evalAll, Expr.evalAll]
  cases e.eval ctx μ with
  | none => exact ⟨_, rfl⟩
  | some t => exact ⟨t, rfl⟩

theorem isBound_of_append {ctx : Context} {μ κ : Solution} {v : Variable} {es fs : List Element}
    (hes : ∀ ν ∈ extendAll ctx es {μ}, ν.IsBound v) (h : κ ∈ extendAll ctx (es ++ fs) {μ}) :
    κ.IsBound v := by
  obtain ⟨ν, hν, h⟩ := mem_extendAll_append.mp h
  exact isBound_of_mem_extendAll (hes ν hν) h

/-- The value of a required field exists in every solution of the document pattern. -/
theorem exists_eval_value {q : Spec} {ts : List FieldTarget} {required : List Element}
    {ctx : Context} {μ κ : Solution} {field : FieldPath} {value : Expr}
    (hts : Projection.targets s model q.fields = .ok ts)
    (hrequired : PathPrefix.hops s (Projection.requiredHops ts) = .ok required)
    (hctx : ctx.given = .empty) (hμ : μ.IsBound rootVariable)
    (hfield : (name, .scalar field) ∈ q.fields) (hreq : field.optionalFrom = none)
    (hvalue : Projection.valueAt s model field.path = .ok value) {rest : List Element}
    (h : κ ∈ extendAll ctx (required ++ rest) {μ}) : ∃ t, value.eval ctx κ = some t := by
  obtain ⟨r, node, hr, hnode, rfl⟩ := Projection.valueAt_eq_ok hvalue
  have hvar {v : Variable} (hv : κ.IsBound v) : ∃ t, (Expr.var v).eval ctx κ = some t := by
    obtain ⟨t, ht⟩ := hv
    exact ⟨t, (Context.value?_eq hctx κ v).trans ht⟩
  have hroot : ∃ t, (Expr.var rootVariable).eval ctx κ = some t :=
    hvar (isBound_of_mem_extendAll hμ h)
  obtain ⟨t, ht, rfl⟩ := Projection.exists_target hts hfield
  have hresolve := Projection.resolve_of_mem_targets hts
  obtain rfl := Except.ok.inj (hr.symm.trans (hresolve t ht))
  cases node with
  | term u =>
    rcases PathPrefix.nodeAt_cases hnode with he | ⟨i, hi⟩ | ⟨_, _, _, -, -, -, -, -, he⟩
    · cases he
    · rw [Node.term.inj hi]
      exact ⟨.iri i, rfl⟩
    · cases he
  | var v =>
    by_cases hv : v = rootVariable
    · rw [hv]
      exact hroot
    · exact hvar (isBound_of_append
        (fun ν hν => isBound_of_requiredHops hresolve hrequired hctx ht hreq hnode hv hν) h)

/-- Every document has a value for each key. -/
theorem isBound_of_compile {q : Spec} {p : Projection} {between : List Element} {ctx : Context}
    {μ κ : Solution} {v : Variable} (hp : Projection.compile s model q = .ok p)
    (hctx : ctx.given = .empty) (hμ : μ.IsBound rootVariable)
    (hv : v ∈ p.columns.filterMap Column.key?)
    (h : κ ∈ extendAll ctx (p.required ++ between ++ p.bindings) {μ}) : κ.IsBound v := by
  obtain ⟨ts, compiled, hts, hrequired, -, hcompiled, hbindings, hcolumns, -⟩ :=
    Projection.compile_eq_ok hp
  obtain ⟨column, hcolumn, hkey⟩ := List.mem_filterMap.mp hv
  rw [hcolumns] at hcolumn
  obtain ⟨c, hc, rfl⟩ := List.mem_map.mp hcolumn
  obtain ⟨⟨name, source⟩, he, hsource⟩ := exists_left_of_mem hcompiled hc
  obtain ⟨field, value, rfl, hvalue, hbinding⟩ := binding_of_compile hsource hkey
  have hfield : (name, Selector.scalar field) ∈ q.fields := by
    rcases List.mem_append.mp he with he | he
    · obtain ⟨e, he, heq⟩ := List.mem_map.mp he
      obtain ⟨rfl, hselector⟩ := Prod.mk.inj heq
      rwa [← ColumnSource.field.inj hselector]
    · obtain ⟨e, -, heq⟩ := List.mem_map.mp he
      cases (Prod.mk.inj heq).2
  have hmem : Element.bind v (if field.isOptional then .coalesce [value, .string ""] else value) ∈
      p.bindings := by
    rw [hbindings]
    exact List.mem_filterMap.mpr ⟨c, hc, hbinding⟩
  obtain ⟨before, after, hsplit⟩ := List.append_of_mem hmem
  rw [hsplit, ← List.append_assoc, List.append_assoc p.required] at h
  obtain ⟨ν, hν, h⟩ := mem_extendAll_append.mp h
  obtain ⟨ν', hν', h⟩ := mem_extendAll_cons.mp h
  refine isBound_of_mem_extendAll ?_ h
  have hexists : ∃ t, (if field.isOptional then Expr.coalesce [value, .string ""] else value).eval
      ctx ν = some t := by
    cases hoptional : field.isOptional with
    | true => exact exists_eval_coalesce value ""
    | false =>
      exact exists_eval_value hts hrequired hctx hμ hfield
        (Option.isNone_iff_eq_none.mp (by simpa [FieldPath.isOptional] using hoptional)) hvalue hν
  obtain ⟨t, ht⟩ := hexists
  rw [Element.extend, Multiset.map_singleton] at hν'
  rw [Multiset.mem_singleton.mp hν']
  exact ⟨t, Solution.extended_self ht⟩

/-! ## Projections -/

namespace Projection

variable {q : Spec} {p : Projection} (hs : s.WellFormed)
  (hnames : ∀ e ∈ q.sources, isFieldName e.1 = true) (hp : compile s model q = .ok p)
include hs hnames hp

/-- A projection has a column for each source, which is separate under the name of the source. -/
theorem exists_separated :
    ∃ compiled, p.columns = compiled.map (·.column) ∧
      List.Forall₂ (fun e c => CompiledColumn.IsSeparated e.1 c) q.sources compiled := by
  obtain ⟨ts, compiled, -, -, -, hcompiled, -, hcolumns, -⟩ := compile_eq_ok hp
  refine ⟨compiled, hcolumns, ?_⟩
  exact ((List.forall₂_and_left _ _).mpr ⟨hnames, hcompiled⟩).imp fun e c hc =>
    ColumnSource.isSeparated_of_compile hs hc.1 hc.2

theorem exists_separated_of_mem :
    ∀ column ∈ p.columns, ∃ name c, isFieldName name = true ∧
      CompiledColumn.IsSeparated name c ∧ c.column = column := by
  obtain ⟨compiled, hcolumns, hseparated⟩ := exists_separated hs hnames hp
  intro column hcolumn
  rw [hcolumns] at hcolumn
  obtain ⟨c, hc, rfl⟩ := List.mem_map.mp hcolumn
  obtain ⟨e, he, hsep⟩ := exists_left_of_mem hseparated hc
  exact ⟨e.1, c, hnames e he, hsep, rfl⟩

/-- No variable of a column is that of another column or of the document. -/
theorem nodup_variables (hdistinct : (q.sources.map Prod.fst).Nodup) :
    (rootVariable :: p.columns.flatMap Column.variables).Nodup := by
  refine List.nodup_cons.mpr ⟨fun hroot => ?_, ?_⟩
  · obtain ⟨column, hcolumn, hv⟩ := List.mem_flatMap.mp hroot
    obtain ⟨name, c, hname, hsep, rfl⟩ := exists_separated_of_mem hs hnames hp column hcolumn
    exact (hsep.pieces _ hv).ne_rootVariable hname rfl
  · obtain ⟨compiled, hcolumns, hseparated⟩ := exists_separated hs hnames hp
    rw [hcolumns]
    exact nodup_columns hseparated hnames hdistinct

/-- The keys are columns of the results. -/
theorem not_isInternal_key : ∀ v ∈ p.columns.filterMap Column.key?, ¬IsInternal v := by
  intro v hv
  obtain ⟨column, hcolumn, hkey⟩ := List.mem_filterMap.mp hv
  obtain ⟨name, c, hname, hsep, rfl⟩ := exists_separated_of_mem hs hnames hp column hcolumn
  exact not_isInternal_of_outputVariable hname (hsep.key v hkey)

end Projection

/-! ## Selections -/

namespace Spec

variable {q : Spec} {options : CompileOptions} {sel : Selection}

/-- The keys of a grouped query are its plain columns. -/
theorem groupBy_of_compile (h : q.compile s options model = .ok sel)
    (hgrouped : sel.isGrouped = true) : sel.groupBy = sel.columns.filterMap Column.key? := by
  obtain ⟨q', classUri, p, filters, orderBy, -, -, -, -, -, rfl⟩ := compile_eq_ok h
  exact if_pos hgrouped

/-- A query that has keys is grouped. -/
theorem isGrouped_of_compile (h : q.compile s options model = .ok sel) (hkeys : sel.groupBy ≠ []) :
    sel.isGrouped = true := by
  obtain ⟨q', classUri, p, filters, orderBy, -, -, -, -, -, rfl⟩ := compile_eq_ok h
  exact by_contra fun hnot => hkeys (if_neg hnot)

/-- A solution of the document pattern binds the document, and every key of a projection. -/
theorem isBound_of_mem_groupSolutions {p : Projection} {classUri : Rdf.Iri} {q' : Spec}
    {optionals : List Element} {ctx : Context} {κ : Solution} {v : Variable}
    (hp : Projection.compile s model q' = .ok p) (hctx : ctx.given = .empty)
    (hκ : κ ∈ groupSolutions ctx (.statement rootNode rdfType (.term (.iri classUri)) ::
      p.required ++ optionals ++ p.bindings))
    (hv : v ∈ rootVariable :: p.columns.filterMap Column.key?) : κ.IsBound v := by
  have hκ := (mem_groupSolutions.mp hκ).1
  rw [List.cons_append, List.cons_append, ← List.singleton_append] at hκ
  obtain ⟨μ, hμ, hκ⟩ := mem_extendAll_append.mp hκ
  have hroot : μ.IsBound rootVariable :=
    (Sparql.Triple.isBound_of_mem_extensions hctx (mem_extendAll_statement.mp hμ)).1 _ rfl
  rcases List.mem_cons.mp hv with rfl | hv
  · exact isBound_of_mem_extendAll hroot hκ
  · exact isBound_of_compile hp hctx hroot hv hκ

/-- The columns of a query with keys are separate. -/
theorem isSeparated_of_compile (hs : s.WellFormed) (hq : q.IsOrdered)
    (h : q.compile s options model = .ok sel) (hkeys : sel.groupBy ≠ []) : sel.IsSeparated := by
  have hgroupBy := groupBy_of_compile h (isGrouped_of_compile h hkeys)
  obtain ⟨q', classUri, p, filters, orderBy, hvalid, hnormal, -, hp, -, rfl⟩ := compile_eq_ok h
  obtain ⟨fields, -, hcolumnNames⟩ := normalized_eq_ok hnormal
  rw [← map_fst_sources] at hcolumnNames
  have hnames := isFieldName_of_mem_sources hvalid hnormal
  have hcolumn := Projection.exists_separated_of_mem hs hnames hp
  refine ⟨hgroupBy, hkeys, ?_, fun v a hmem => ?_, fun column hmem r hr => ?_,
    fun ctx hctx κ hκ v hv => ?_⟩
  · exact Projection.nodup_variables hs hnames hp (hcolumnNames ▸ nodup_columnNames hq hvalid)
  · obtain ⟨name, c, -, hsep, hc⟩ := hcolumn _ hmem
    exact hsep.counts v a hc
  · obtain ⟨name, c, -, hsep, rfl⟩ := hcolumn column hmem
    rw [hgroupBy]
    exact hsep.reduced r hr _ (Projection.not_isInternal_key hs hnames hp)
  · rw [hgroupBy] at hv
    dsimp only [Selection.elements] at hκ
    rw [List.append_assoc _ filters] at hκ
    exact isBound_of_mem_groupSolutions hp hctx hκ hv

end Spec

end DocGraph
