import DocGraph.Proofs.Compile.Grouped
import DocGraph.Proofs.Compile.ScopedColumns

/-!
# The variables of a query

A query that is compiled obeys the rules of SPARQL for variables
(`Selection.obeysVariableRules_of_compile`). Its filter assigns nothing, its columns are
named after fields and all other variables are not, and every field leads to a node that a
required or an optional element binds.
-/

namespace DocGraph

open Rdf (Variable rdfType)
open Sparql (Expr Node)

variable {s : Schema} {model name : String} {q q' : Spec} {p : Projection} {v : Variable}
  {es : List Element}

/-! ## Expressions -/

mutual

/-- The variables that an expression reads. -/
def Sparql.Expr.reads : Expr → List Variable
  | .iri _ => []
  | .literal _ => []
  | .var v => [v]
  | .relation _ a b => a.reads ++ b.reads
  | .and a b => a.reads ++ b.reads
  | .not e => e.reads
  | .oneOf e choices => e.reads ++ Sparql.Expr.readsAll choices
  | .call _ args => Sparql.Expr.readsAll args
  | .coalesce args => Sparql.Expr.readsAll args
  | .bound v => [v]
  | .hasMatch p => p.scope

/-- The variables that several expressions read. -/
def Sparql.Expr.readsAll : List Expr → List Variable
  | [] => []
  | e :: rest => e.reads ++ Sparql.Expr.readsAll rest

end

theorem Sparql.Expr.reads_ofNode (n : Node) : (Expr.ofNode n).reads = n.variables := by
  rcases n with v | (i | b | l) <;> rfl

/-! ## Hops -/

/-- A hop binds the variable at its end. -/
theorem mem_variables_of_hop {subject : Node} {step : PathStep}
    (h : hop s subject step (.var v) = .ok es) (hid : step.target ≠ .identity) :
    v ∈ elementVariables es := by
  rcases hop_cases h hid with ⟨p, rfl, -⟩ | ⟨p, classUri, rfl, -⟩ <;>
    simp [elementVariables, Element.variables, Element.statement, Sparql.Triple.variables,
      Node.variables]

theorem PathPrefix.mem_variables_of_hops {ps : List PathPrefix} {path : Path} {r : ResolvedPath}
    {m : Nat} {step : PathStep} (h : hops s ps = .ok es) (hp : ⟨path, r, m + 1⟩ ∈ ps)
    (hstep : r.steps[m]? = some step) (hid : step.target ≠ .identity)
    (htype : ¬(m = 0 ∧ step.target = .type))
    (hv : variableAt .node (path.segments.take (m + 1)) = .ok v) : v ∈ elementVariables es := by
  obtain ⟨ess, hess, rfl⟩ := hops_eq_ok h
  obtain ⟨here, hmem, hhop⟩ := exists_right_of_mem hess hp
  obtain ⟨subject, hhop⟩ := hop_of_step hstep hid htype hv hhop
  exact mem_elementVariables_flatten.mpr ⟨here, hmem, mem_variables_of_hop hhop hid⟩

namespace Projection

variable {ts : List FieldTarget} {t : FieldTarget} {required optionals : List Element}

/-- A prefix that no field requires belongs to the optional block of its field. -/
theorem exists_optionalHop (ht : t ∈ ts) {m : Nat} (hm : m < t.path.length)
    (hrequired : t.path.take (m + 1) ∉ requiredPaths ts) :
    ∃ group ∈ optionalGroups ts, ∃ t' ∈ ts,
      t'.path.segments.take (m + 1) = t.path.segments.take (m + 1) ∧
        ⟨t'.path, t'.resolved, m + 1⟩ ∈ optionalHops ts group := by
  obtain ⟨group, hgroup⟩ : ∃ group, t.field.optionalGroup? = some group := by
    cases hfrom : t.field.optionalFrom with
    | some n => exact ⟨_, by rw [FieldPath.optionalGroup?, hfrom]; rfl⟩
    | none =>
      refine absurd (List.mem_flatMap.mpr ⟨t, ht, List.mem_map.mpr ⟨m + 1, ?_, rfl⟩⟩) hrequired
      rw [FieldTarget.requiredLength, hfrom, List.mem_range'_1]
      exact ⟨Nat.le_add_left 1 m, by rw [Option.getD_none]; omega⟩
  have hmem : group ∈ ts.filterMap (·.field.optionalGroup?) :=
    List.mem_filterMap.mpr ⟨t, ht, hgroup⟩
  obtain ⟨other, hother, heq⟩ := exists_mem_firstByKey id hmem
  obtain rfl : other = group := heq
  have hfields : t ∈ ts.filter (·.field.optionalGroup? = some other) :=
    List.mem_filter.mpr ⟨ht, decide_eq_true hgroup⟩
  obtain ⟨t', ht', htake, hhop⟩ := exists_hop_of_prefix (f := (·.key ∉ requiredPaths ts)) hfields hm
    (decide_eq_true hrequired)
  exact ⟨other, hother, t', List.mem_of_mem_filter ht', htake, hhop⟩

theorem mem_optionals {group : String} {block : List Element}
    (h : optionalElements s ts = .ok optionals) (hgroup : group ∈ optionalGroups ts)
    (hblock : PathPrefix.hops s (optionalHops ts group) = .ok block) (hne : block ≠ []) :
    .optional block ∈ optionals := by
  obtain ⟨blocks, hblocks, h⟩ := Outcome.bind_eq_ok.mp h
  obtain rfl := Except.ok.inj h
  obtain ⟨block', hmem, hblock'⟩ := exists_right_of_mem (Outcome.mapM_eq_ok.mp hblocks) hgroup
  obtain rfl := Except.ok.inj (hblock.symm.trans hblock')
  refine List.mem_map.mpr ⟨block, List.mem_filter.mpr ⟨hmem, ?_⟩, rfl⟩
  rw [List.isEmpty_eq_false_iff.mpr hne]
  rfl

/-- The node of a field is the document, or a required or an optional element binds it. -/
theorem mem_variables_of_node (hts : ∀ t ∈ ts, s.resolve model t.path = .ok t.resolved)
    (hrequired : PathPrefix.hops s (requiredHops ts) = .ok required)
    (hoptionals : optionalElements s ts = .ok optionals) (ht : t ∈ ts) {node : Node}
    (hnode : PathPrefix.nodeAt t.path t.resolved t.path.length = .ok node) :
    ∀ v ∈ node.variables, v = rootVariable ∨ v ∈ elementVariables (required ++ optionals) := by
  intro v hv
  rcases PathPrefix.nodeAt_cases hnode with rfl | ⟨i, rfl⟩ |
    ⟨m, step, w, hm, hstep, hid, htype, hw, rfl⟩
  · exact .inl (List.mem_singleton.mp hv)
  · cases hv
  obtain rfl := List.mem_singleton.mp hv
  rw [elementVariables_append, List.mem_append]
  have hstep' {t' : FieldTarget} (ht' : t' ∈ ts)
      (htake : t'.path.segments.take (m + 1) = t.path.segments.take (m + 1)) :
      t'.resolved.steps[m]? = some step :=
    (Schema.getElem?_of_resolve (hts t' ht') (hts t ht) htake).trans hstep
  by_cases hprefix : t.path.take (m + 1) ∈ requiredPaths ts
  · obtain ⟨t', ht', htake, hhop⟩ := exists_hop_of_prefix (f := (·.key ∈ requiredPaths ts)) ht hm
      (decide_eq_true hprefix)
    exact .inr (.inl (PathPrefix.mem_variables_of_hops hrequired hhop (hstep' ht' htake) hid htype
      (htake ▸ hw)))
  · obtain ⟨group, hgroup, t', ht', htake, hhop⟩ := exists_optionalHop ht hm hprefix
    obtain ⟨blocks, hblocks, -⟩ := Outcome.bind_eq_ok.mp hoptionals
    obtain ⟨block, -, hblock⟩ := exists_right_of_mem (Outcome.mapM_eq_ok.mp hblocks) hgroup
    have hv := PathPrefix.mem_variables_of_hops hblock hhop (hstep' ht' htake) hid htype
      (htake ▸ hw)
    have hne : block ≠ [] := by
      rintro rfl
      cases hv
    exact .inr (.inr (mem_elementVariables.mpr
      ⟨_, mem_optionals hoptionals hgroup hblock hne, hv⟩))

/-- A binding reads the document or what a required or an optional element binds. -/
theorem reads_bindings (hp : compile s model q = .ok p) : ∀ e ∈ p.bindings, ∃ v value,
    e = .bind v value ∧ ∀ w ∈ value.reads,
      w = rootVariable ∨ w ∈ elementVariables (p.required ++ p.optionals) := by
  intro e he
  obtain ⟨name, field, output, r, node, hfield, -, hr, hnode, rfl⟩ := binding_cases hp he
  obtain ⟨ts, compiled, hts, hrequired, hoptionals, -⟩ := compile_eq_ok hp
  have hresolve := resolve_of_mem_targets hts
  obtain ⟨t, ht, rfl⟩ := exists_target hts hfield
  obtain rfl := Except.ok.inj (hr.symm.trans (hresolve t ht))
  have hvariables := mem_variables_of_node hresolve hrequired hoptionals ht hnode
  refine ⟨output, _, rfl, fun w hw => hvariables w ?_⟩
  split at hw
  · rw [Expr.reads, Expr.readsAll, Expr.reads_ofNode, List.mem_append] at hw
    exact hw.resolve_right nofun
  · rwa [Expr.reads_ofNode] at hw

end Projection

/-! ## Selections -/

/-- Whether a selection obeys the rules of SPARQL for variables. -/
structure Selection.ObeysVariableRules (sel : Selection) : Prop where
  /-- The columns of the results are different. -/
  nodup_columns : (sel.columns.map Column.carrier).Nodup
  /-- The rows are ordered by columns of the results. -/
  orderBy_columns : ∀ key ∈ sel.orderBy, key.column ∈ sel.columns.map Column.carrier
  /-- Only a query with an aggregated column has keys, -/
  isGrouped : sel.groupBy ≠ [] → sel.isGrouped = true
  /-- which are its plain columns in their order. -/
  groupBy_eq : sel.isGrouped = true → sel.groupBy = sel.columns.filterMap Column.key?
  /-- In the pattern of the query, and in every pattern in it, what is assigned is bound
  nowhere else in its group. -/
  isScoped : sel.pattern.IsScoped
  /-- A binding of the document pattern reads the document, or what a required or an optional
  element binds. -/
  reads_bindings : ∀ e ∈ sel.bindings, ∃ v value, e = .bind v value ∧
    ∀ w ∈ value.reads, w = rootVariable ∨ w ∈ elementVariables (sel.required ++ sel.optionals)
  /-- Every column is in scope of the rows that the query projects, -/
  carrier_mem_scope : ∀ column ∈ sel.columns, column.carrier ∈ sel.ordered.scope
  /-- and of the pattern of the query. -/
  mem_scope_pattern : ∀ column ∈ sel.columns, column.carrier ∈ sel.pattern.scope

/-- The rows are ordered by fields and aggregates. -/
theorem Spec.orderBy_of_compile {options : CompileOptions} {sel : Selection}
    (h : q.compile s options model = .ok sel) (hnormal : q.normalized s model = .ok q') :
    ∀ key ∈ sel.orderBy, ∃ name ∈ q'.names, outputVariable name = .ok key.column := by
  obtain ⟨⟨⟩, -, h⟩ := Outcome.bind_eq_ok.mp h
  obtain ⟨q'', hnormal', h⟩ := Outcome.bind_eq_ok.mp h
  obtain rfl := Except.ok.inj (hnormal.symm.trans hnormal')
  obtain ⟨classUri, -, h⟩ := Outcome.bind_eq_ok.mp h
  obtain ⟨⟨⟩, hsort, h⟩ := Outcome.bind_eq_ok.mp h
  obtain ⟨p, -, h⟩ := Outcome.bind_eq_ok.mp h
  obtain ⟨filters, -, h⟩ := Outcome.bind_eq_ok.mp h
  obtain ⟨orderBy, horderBy, h⟩ := Outcome.bind_eq_ok.mp h
  obtain rfl := Except.ok.inj h
  intro key hkey
  obtain ⟨d, hd, hkey⟩ := exists_left_of_mem (Outcome.mapM_eq_ok.mp horderBy) hkey
  obtain ⟨v, hv, hkey⟩ := Outcome.bind_eq_ok.mp hkey
  obtain rfl := Except.ok.inj hkey
  exact ⟨d.target, succeeds_checkSort.mp ⟨(), hsort⟩ d hd, hv⟩

theorem Column.eq_of_ofDocuments? {column : Column} {a : Sparql.Aggregate}
    (h : column.ofDocuments? = some (v, a)) : column = .aggregate v a none := by
  rcases column with _ | ⟨w, b, _ | values⟩ | _
  · cases h
  · obtain ⟨rfl, rfl⟩ := Prod.mk.inj (Option.some.inj h)
    rfl
  · cases h
  · cases h

namespace Projection

section Compiled

variable (hs : s.WellFormed) (hp : compile s model q = .ok p)
include hs hp

/-- The required and the optional elements ask something of the document. -/
theorem asks_required (classUri : Rdf.Iri) :
    Asks (.statement rootNode rdfType (.term (.iri classUri)) :: p.required) := by
  refine .triples (List.forall_mem_cons.mpr ⟨trivial, isTriple_required hp⟩) fun v hv => ?_
  rw [elementVariables, List.mem_append] at hv
  rcases hv with hv | hv
  · rw [List.mem_singleton.mp hv]
    exact isInternal_rootVariable
  · exact (isNode_required hs hp v hv).isInternal

theorem asks_optionals : Asks p.optionals := by
  refine .of_forall fun e he => ?_
  obtain ⟨block, rfl, htriples⟩ := isTriple_optionals hp e he
  exact .optional (.triples htriples fun v hv =>
    (isNode_optionals hs hp v (mem_elementVariables.mpr ⟨_, he, hv⟩)).isInternal)

variable (hnames : ∀ e ∈ q.sources, isFieldName e.1 = true)
include hnames

/-- A projection has a column for each source, which obeys the rules under its name. -/
theorem exists_scoped : ∃ compiled, p.bindings = compiled.filterMap (·.binding) ∧
    p.columns = compiled.map (·.column) ∧
      List.Forall₂ CompiledColumn.IsScoped (q.sources.map Prod.fst) compiled := by
  obtain ⟨ts, compiled, -, -, -, hcompiled, hbindings, hcolumns, -⟩ := compile_eq_ok hp
  refine ⟨compiled, hbindings, hcolumns, List.forall₂_map_left_iff.mpr ?_⟩
  exact ((List.forall₂_and_left _ _).mpr ⟨hnames, hcompiled⟩).imp fun e c hc =>
    ColumnSource.isScoped_of_compile hs hc.1 hc.2

theorem variables_bindings_eq :
    elementVariables p.bindings = p.columns.filterMap Column.key? := by
  obtain ⟨compiled, hbindings, hcolumns, hscoped⟩ := exists_scoped hs hp hnames
  rw [hbindings, hcolumns, variables_bindings hscoped]

theorem not_isInternal_carrier {column : Column} (hcolumn : column ∈ p.columns) :
    ¬IsInternal column.carrier := by
  obtain ⟨compiled, -, hcolumns, hscoped⟩ := exists_scoped hs hp hnames
  rw [hcolumns] at hcolumn
  obtain ⟨c, hc, rfl⟩ := List.mem_map.mp hcolumn
  obtain ⟨name, hname, hcolumn⟩ := exists_left_of_mem hscoped hc
  obtain ⟨e, he, rfl⟩ := List.mem_map.mp hname
  exact not_isInternal_of_outputVariable (hnames e he) hcolumn.carrier

/-- A sort target is a column. -/
theorem mem_carriers (hname : name ∈ q.names) (hv : outputVariable name = .ok v) :
    v ∈ p.columns.map Column.carrier := by
  obtain ⟨compiled, -, hcolumns, hscoped⟩ := exists_scoped hs hp hnames
  rw [← Spec.map_fst_sources] at hname
  obtain ⟨c, hc, hcolumn⟩ := exists_right_of_mem hscoped hname
  rw [hcolumns, ← Except.ok.inj (hcolumn.carrier.symm.trans hv)]
  exact List.mem_map_of_mem (List.mem_map_of_mem hc)

theorem isPatternFree_count {a : Sparql.Aggregate}
    (h : (v, a) ∈ p.columns.filterMap Column.ofDocuments?) : a.IsPatternFree := by
  obtain ⟨column, hcolumn, hcount⟩ := List.mem_filterMap.mp h
  obtain rfl := Column.eq_of_ofDocuments? hcount
  obtain ⟨name, c, -, hsep, hc⟩ := exists_separated_of_mem hs hnames hp _ hcolumn
  rw [hsep.counts v a hc, Sparql.Aggregate.IsPatternFree, Expr.IsPatternFree]
  trivial

theorem exists_reduced {r : Reduced} (hr : r ∈ p.columns.filterMap Column.reduced?) :
    ∃ name c, CompiledColumn.IsScoped name c ∧ c.column.reduced? = some r := by
  obtain ⟨compiled, -, hcolumns, hscoped⟩ := exists_scoped hs hp hnames
  obtain ⟨column, hcolumn, hreduced⟩ := List.mem_filterMap.mp hr
  rw [hcolumns] at hcolumn
  obtain ⟨c, hc, rfl⟩ := List.mem_map.mp hcolumn
  obtain ⟨name, -, hcolumn⟩ := exists_left_of_mem hscoped hc
  exact ⟨name, c, hcolumn, hreduced⟩

/-- The bindings give values that ask for no pattern. -/
theorem bindings_cases : ∀ e ∈ p.bindings, ∃ v value, e = .bind v value ∧ value.IsPatternFree := by
  obtain ⟨compiled, hbindings, -, hscoped⟩ := exists_scoped hs hp hnames
  intro e he
  rw [hbindings] at he
  obtain ⟨c, hc, hbinding⟩ := List.mem_filterMap.mp he
  obtain ⟨name, -, hcolumn⟩ := exists_left_of_mem hscoped hc
  rcases hcolumn.binding with ⟨v, value, -, hsome, hvalue⟩ | ⟨-, hnone⟩
  · exact ⟨v, value, Option.some.inj (hbinding.symm.trans hsome), hvalue⟩
  · cases hbinding.symm.trans hnone

/-- The document pattern obeys the rules: what its bindings assign is named after fields. -/
theorem areScoped_elements (hdistinct : (q.sources.map Prod.fst).Nodup) (hes : IsQuestion es) :
    AreScoped (es ++ p.bindings) := by
  have hvariables := variables_bindings_eq hs hp hnames
  have hkeys : (elementVariables es).Disjoint (elementVariables p.bindings) := fun v hv hkey =>
    not_isInternal_key hs hnames hp v (hvariables ▸ hkey) (hes.internal v hv)
  refine areScoped_append hes.areScoped (areScoped_bindings (fun e he => ?_) ?_) ?_ ?_
  · obtain ⟨v, value, rfl, hvalue⟩ := bindings_cases hs hp hnames e he
    exact ⟨v, value, rfl, hvalue.isScoped⟩
  · rw [hvariables]
    exact Column.nodup_filterMap (List.nodup_cons.mp (nodup_variables hs hnames hp hdistinct)).2
      fun _ _ => Column.mem_variables_of_key?
  · rw [hes.unassigned]
    exact List.disjoint_nil_left _
  · exact List.disjoint_of_subset_right (elementAssignments_subset _) hkeys

/-- What counts the documents is named after a field of its own. -/
theorem count_notMem (hdistinct : (q.sources.map Prod.fst).Nodup) (hes : IsQuestion es)
    {a : Sparql.Aggregate} (h : (v, a) ∈ p.columns.filterMap Column.ofDocuments?) :
    v ∉ elementVariables (es ++ p.bindings) := by
  obtain ⟨column, hcolumn, hcount⟩ := List.mem_filterMap.mp h
  obtain rfl := Column.eq_of_ofDocuments? hcount
  rw [elementVariables_append, List.mem_append, variables_bindings_eq hs hp hnames, not_or]
  refine ⟨fun hmem => ?_, fun hkey => ?_⟩
  · exact not_isInternal_carrier hs hp hnames hcolumn (hes.internal v hmem)
  · have hnodup := List.nodup_cons.mp (nodup_variables hs hnames hp hdistinct)
    exact Column.disjoint_key? hnodup.2 (fun _ _ => Column.mem_variables_of_count?) (fun _ => rfl)
      hkey (List.mem_filterMap.mpr ⟨_, hcolumn, rfl⟩)

end Compiled

end Projection

theorem Spec.asks_filters {f : FilterScope} (hs : f.schema.WellFormed)
    (h : q.filterElements f = .ok es) : Asks es := by
  unfold filterElements at h
  split at h
  · obtain rfl := Except.ok.inj h
    exact .nil
  · obtain ⟨compiled, hcompiled, h⟩ := Outcome.bind_eq_ok.mp h
    obtain rfl := Except.ok.inj h
    exact FilterScope.asks_compile hs _ hcompiled

namespace Selection

variable {options : CompileOptions} {sel : Selection}

/-- The parts of a selection that is compiled obey the rules for variables. -/
theorem isScoped_of_compile (hs : s.WellFormed) (hq : q.IsOrdered)
    (h : q.compile s options model = .ok sel) : sel.IsScoped := by
  have hgroupBy := Spec.groupBy_of_compile h
  have hgrouped := Spec.isGrouped_of_compile h
  obtain ⟨q', classUri, p, filters, orderBy, hvalid, hnormal, -, hp, hfilters, hsel⟩ :=
    Spec.compile_eq_ok h
  have horderBy := Spec.orderBy_of_compile h hnormal
  obtain ⟨fields, -, hcolumnNames⟩ := Spec.normalized_eq_ok hnormal
  have hnames := Spec.isFieldName_of_mem_sources hvalid hnormal
  have hdistinct : (q'.sources.map Prod.fst).Nodup := by
    rw [Spec.map_fst_sources, hcolumnNames]
    exact Spec.nodup_columnNames hq hvalid
  have hnodup := Projection.nodup_variables hs hnames hp hdistinct
  have hkeys := Projection.not_isInternal_key hs hnames hp
  have hvariables := Projection.variables_bindings_eq hs hp hnames
  have hquestion : IsQuestion (sel.required ++ sel.filters ++ sel.optionals) := by
    rw [hsel]
    exact (((Projection.asks_required hs hp classUri).append
      (Spec.asks_filters hs hfilters)).append (Projection.asks_optionals hs hp)).isQuestion
  have helements : sel.elements = sel.required ++ sel.filters ++ sel.optionals ++ p.bindings := by
    rw [hsel]
    rfl
  have hscope {v : Variable} (hv : v ∈ p.columns.filterMap Column.key?) :
      v ∈ elementVariables sel.elements := by
    rw [helements, elementVariables_append, hvariables]
    exact List.mem_append_right _ hv
  have hsame : sel.columns = p.columns := by rw [hsel]
  -- the columns are named after fields, and what the other elements bind is not
  refine ⟨?_, ?_, ?_, fun v hv => hscope (hsame ▸ hv), hsame ▸ hnodup, hgrouped,
    hgroupBy, fun v a hmem => ?_, fun r hr => ?_, fun key hkey => ?_⟩
  · rw [helements]
    exact Projection.areScoped_elements hs hp hnames hdistinct hquestion
  · rw [hsel]
    exact List.mem_cons_self
  · rw [helements, elementAssignments_append, hquestion.unassigned, List.nil_append]
    exact fun hroot => hkeys _ (hvariables ▸ elementAssignments_subset _ hroot)
      isInternal_rootVariable
  · rw [hsame] at hmem
    rw [helements]
    exact ⟨(Projection.isPatternFree_count hs hp hnames hmem).isScoped,
      Projection.count_notMem hs hp hnames hdistinct hquestion hmem⟩
  · obtain ⟨name, c, hcolumn, hreduced⟩ := Projection.exists_reduced hs hp hnames (hsame ▸ hr)
    refine hcolumn.reduced r hreduced sel.groupBy fun v hv => hkeys v ?_
    rwa [← hsame, ← hgroupBy (hgrouped (List.ne_nil_of_mem hv))]
  · obtain ⟨name, hname, hkey⟩ := horderBy key hkey
    rw [hsame]
    exact Projection.mem_carriers hs hp hnames hname hkey

/-- The columns, and nothing else, are in scope of the pattern of a query. -/
theorem scope_pattern (sel : Selection) : sel.pattern.scope = sel.columns.map Column.carrier := by
  unfold pattern
  dsimp only
  split_ifs <;> rfl

/-- A query that is compiled obeys the rules of SPARQL for variables. -/
theorem obeysVariableRules_of_compile {d : SchemaDefinition} (hd : d.build = .ok s)
    (hq : q.IsOrdered) (h : q.compile s options model = .ok sel) : sel.ObeysVariableRules := by
  have hs := isScoped_of_compile (SchemaDefinition.build_wellFormed hd) hq h
  obtain ⟨q', classUri, p, filters, orderBy, -, -, -, hp, -, hsel⟩ := Spec.compile_eq_ok h
  refine ⟨hs.nodup_carriers, hs.orderBy, hs.isGrouped, hs.groupBy_eq, hs.pattern, ?_,
    fun column hcolumn => hs.carrier_mem_scope hcolumn,
    fun column hcolumn => scope_pattern sel ▸ List.mem_map_of_mem hcolumn⟩
  rw [hsel]
  intro e he
  obtain ⟨v, value, rfl, hreads⟩ := Projection.reads_bindings hp e he
  refine ⟨v, value, rfl, fun w hw => (hreads w hw).imp_right fun hmem => ?_⟩
  rw [List.cons_append, elementVariables]
  exact List.mem_append_right _ hmem

/-- People of an age by their type: how many there are, and their names. -/
theorem obeysVariableRules_names : ∃ sel, people.build = .ok peopleSchema ∧
    (ofFive [("names", ⟨.array, some (.ofText "name"), [], false⟩)]).IsOrdered ∧
    (ofFive [("names", ⟨.array, some (.ofText "name"), [], false⟩)]).compile peopleSchema {}
      "Person" = .ok sel ∧ sel.ObeysVariableRules := by
  obtain ⟨sel, hsel, -⟩ := compile_ofFive_names
  have hordered : (ofFive [("names", ⟨.array, some (.ofText "name"), [], false⟩)]).IsOrdered := by
    constructor <;> unfold Dict.IsSorted <;> decide
  exact ⟨sel, people_build, hordered, hsel,
    obeysVariableRules_of_compile people_build hordered hsel⟩

end Selection

end DocGraph
