import DocGraph.Proofs.Compile.ScopedFilters

/-!
# Columns in scope

What the column of a field or an aggregate reduces obeys the rules for variables, whatever
the keys of the groups are (`CompiledColumn.IsScoped`), and a plain column is bound once, by
its binding.
-/

namespace DocGraph

open Rdf (Variable)
open Sparql (Expr)
open Sparql.Expr (arePatternFree_of_forall isPatternFree_ofNode isPatternFree_string)

variable {s : Schema} {model name : String} {c : CompiledColumn} {output : Variable}
  {es : List Element} {v : Variable}

/-! ## Variables of fields -/

/-- The variable of a field in another role than that of nodes is no node of a path. -/
theorem not_isNode_of_fieldVariable {role : Role} {tag : String} (htag : role.tag? = some tag)
    (hrole : role ≠ .node) (hname : isFieldName name = true)
    (h : fieldVariable role name = .ok v) : ¬IsNode v := by
  have howns := owns_fieldVariable htag hname h
  rintro (rfl | hnode)
  · exact Role.not_owns_root role 0 howns
  · exact hrole (howns.role_eq hnode)

/-! ## Columns -/

/-- Whether elements ask something of the document, and then give values that ask for no
pattern to variables. -/
def AsksAndBinds (es : List Element) : Prop :=
  ∃ asked bound, es = asked ++ bound ∧ Asks asked ∧
    ∀ e ∈ bound, ∃ v value, e = .bind v value ∧ value.IsPatternFree

theorem Asks.asksAndBinds (h : Asks es) : AsksAndBinds es :=
  ⟨es, [], (List.append_nil es).symm, h, nofun⟩

/-- What the column of a field or an aggregate has in the pattern of a query: its variable in
the results, what it reduces, and what the document pattern binds for it. -/
structure CompiledColumn.IsScoped (name : String) (c : CompiledColumn) : Prop where
  carrier : outputVariable name = .ok c.column.carrier
  asks : ∀ r, c.column.reduced? = some r → r.aggregate.IsPatternFree ∧ AsksAndBinds r.values
  reduced : ∀ r, c.column.reduced? = some r → ∀ keys : List Variable,
    (∀ v ∈ keys, ¬IsInternal v) → r.IsScoped keys
  binding : (∃ v e, c.column.key? = some v ∧ c.binding = some (.bind v e) ∧ e.IsPatternFree) ∨
    c.column.key? = none ∧ c.binding = none

theorem Projection.isTriple_hopsAfter {path : Path} {start : Nat}
    (h : hopsAfter s model path start = .ok es) : ∀ e ∈ es, e.IsTriple := by
  obtain ⟨r, -, h⟩ := Outcome.bind_eq_ok.mp h
  exact PathPrefix.isTriple_hops h

theorem Projection.asks_hopsAfter (hs : s.WellFormed) {path : Path} {start : Nat}
    (h : hopsAfter s model path start = .ok es) : Asks es :=
  .triples (isTriple_hopsAfter h) (isInternal_hopsAfter hs h)

/-- The value at a path is that of a node. -/
theorem Projection.isPatternFree_valueAt {path : Path} {value : Expr}
    (h : valueAt s model path = .ok value) : value.IsPatternFree := by
  obtain ⟨r, node, -, -, rfl⟩ := valueAt_eq_ok h
  exact isPatternFree_ofNode node

theorem isPatternFree_encoded {value : Expr} (h : value.IsPatternFree) :
    (Projection.encoded value).IsPatternFree := by
  simp only [Projection.encoded, Expr.IsPatternFree, Expr.ArePatternFree, h, and_self]

/-- The members of objects are in optional blocks of their own. -/
theorem asks_blocks (hs : s.WellFormed) {property : Path} {members : Dict Path}
    {compiled : List CompiledMember}
    (h : List.Forall₂ (CompiledMember.IsOf s model property) members compiled) :
    Asks (CompiledMember.blocks compiled) := by
  refine .of_forall fun e he => ?_
  obtain ⟨m, hm, rfl⟩ := List.mem_map.mp he
  obtain ⟨member, -, hof⟩ := exists_left_of_mem h (List.mem_of_mem_filter hm)
  exact .optional (Projection.asks_hopsAfter hs hof.hops)

theorem isPatternFree_fragments {index : Nat} {parts : List (String × Expr)}
    (h : ∀ part ∈ parts, part.2.IsPatternFree) :
    ∀ e ∈ objectFragments index parts, e.IsPatternFree := by
  induction parts generalizing index with
  | nil => exact List.forall_mem_singleton.mpr (isPatternFree_string _)
  | cons part rest ih =>
    rw [List.forall_mem_cons] at h
    rw [objectFragments, List.forall_mem_cons, List.forall_mem_cons, Expr.IsPatternFree]
    refine ⟨isPatternFree_string _, arePatternFree_of_forall ?_, ih h.2⟩
    exact List.forall_mem_cons.mpr
      ⟨isPatternFree_encoded h.1, List.forall_mem_singleton.mpr (isPatternFree_string _)⟩

section Columns

variable (hs : s.WellFormed) (hname : isFieldName name = true)
  (houtput : outputVariable name = .ok output)
include hname houtput

/-- A packed column binds its encoded values once for the nodes of its paths, and its raw
text nowhere else. -/
theorem isScoped_packed {packed encoded : Variable} {packing : Packing} {e : Expr}
    {projected : Option Path} (hpacked : fieldVariable .packed name = .ok packed)
    (hencoded : fieldVariable .encoded name = .ok encoded) (hes : Asks es)
    (hnode : ∀ v ∈ elementVariables es, IsNode v) (he : e.IsPatternFree) :
    CompiledColumn.IsScoped name
      ⟨.packed output packed encoded packing (es ++ [.bind encoded e]), none, projected⟩ := by
  have hraw : ¬IsNode packed := not_isNode_of_fieldVariable rfl (by decide) hname hpacked
  have hcode : ¬IsNode encoded := not_isNode_of_fieldVariable rfl (by decide) hname hencoded
  have hne : packed ≠ encoded := by
    rintro rfl
    cases (owns_fieldVariable rfl hname hpacked).role_eq (owns_fieldVariable rfl hname hencoded)
  have hvariables : elementVariables (es ++ [.bind encoded e]) = elementVariables es ++ [encoded] :=
    elementVariables_append _ _
  have hassignments : elementAssignments (es ++ [.bind encoded e]) = [encoded] := by
    rw [elementAssignments_append, hes.isQuestion.unassigned]
    rfl
  have haggregate : (Sparql.Aggregate.reduce (.groupConcat packing.separator) (.var encoded)
      true).IsPatternFree := by
    simp only [Sparql.Aggregate.IsPatternFree, Expr.IsPatternFree]
  refine ⟨houtput, fun r hr => ?_, fun r hr keys hkeys => ?_, .inr ⟨rfl, rfl⟩⟩
  · obtain rfl := Option.some.inj hr
    exact ⟨haggregate, es, [.bind encoded e], rfl, hes,
      List.forall_mem_singleton.mpr ⟨encoded, e, rfl, he⟩⟩
  obtain rfl := Option.some.inj hr
  refine ⟨haggregate.isScoped, areScoped_append hes.isQuestion.areScoped ?_ ?_ ?_, ?_, ?_, ?_⟩
  · rw [AreScoped, Element.IsScoped, AreScoped]
    exact ⟨he.isScoped, trivial, List.disjoint_nil_right _, List.disjoint_nil_right _⟩
  · rw [hes.isQuestion.unassigned]
    exact List.disjoint_nil_left _
  · exact List.disjoint_singleton.mpr fun hmem => hcode (hnode encoded hmem)
  · rw [hvariables, List.mem_append, List.mem_singleton, not_or]
    exact ⟨fun hmem => hraw (hnode packed hmem), hne⟩
  · rw [hvariables, List.disjoint_append_right]
    refine ⟨fun v hkey hv => hkeys v hkey (hnode v hv).isInternal, List.disjoint_singleton.mpr ?_⟩
    exact fun hkey => hkeys encoded hkey (isInternal_of_fieldVariable rfl hname hencoded)
  · rw [hassignments, List.mem_singleton]
    exact fun hroot => hcode (.inl hroot.symm)

include hs

theorem isScoped_valuesColumn {path : Path}
    (h : Projection.valuesColumn s model name output path = .ok c) : c.IsScoped name := by
  obtain ⟨encoded, packed, hops, value, hencoded, hpacked, hhops, hvalue, rfl⟩ :=
    Projection.valuesColumn_eq_ok h
  exact isScoped_packed hname houtput hpacked hencoded (Projection.asks_hopsAfter hs hhops)
    (isNode_hopsAfter hs hhops) (isPatternFree_encoded (Projection.isPatternFree_valueAt hvalue))

theorem isScoped_objectsColumn {property : Path} {members : Dict Path}
    (h : Projection.objectsColumn s model name output property members = .ok c) :
    c.IsScoped name := by
  obtain ⟨encoded, packed, hops, compiled, hencoded, hpacked, hhops, hcompiled, rfl⟩ :=
    Projection.objectsColumn_eq_ok h
  refine isScoped_packed hname houtput hpacked hencoded
    ((Projection.asks_hopsAfter hs hhops).append (asks_blocks hs hcompiled)) (fun v hv => ?_) ?_
  · rw [elementVariables_append, List.mem_append] at hv
    exact hv.elim (isNode_hopsAfter hs hhops v) (isNode_blocks hs hcompiled v)
  · rw [Expr.IsPatternFree]
    refine arePatternFree_of_forall (isPatternFree_fragments fun part hpart => ?_)
    obtain ⟨m, hm, rfl⟩ := List.mem_map.mp hpart
    obtain ⟨member, -, hof⟩ := exists_left_of_mem hcompiled hm
    exact Projection.isPatternFree_valueAt hof.value

theorem isScoped_reducedColumn {path : Path} {r : Sparql.Reduction} {distinct : Bool}
    (h : Projection.reducedColumn s model output path r distinct = .ok c) : c.IsScoped name := by
  obtain ⟨value, hops, hvalue, hhops, rfl⟩ := Projection.reducedColumn_eq_ok h
  have hasks := Projection.asks_hopsAfter hs hhops
  have hquestion := hasks.isQuestion
  have haggregate : (Sparql.Aggregate.reduce r value distinct).IsPatternFree :=
    Projection.isPatternFree_valueAt hvalue
  refine ⟨houtput, fun r hr => ?_, fun r hr keys hkeys => ?_, .inr ⟨rfl, rfl⟩⟩
  · obtain rfl := Option.some.inj hr
    exact ⟨haggregate, hasks.asksAndBinds⟩
  obtain rfl := Option.some.inj hr
  refine ⟨haggregate.isScoped, hquestion.areScoped, fun hmem => ?_, fun v hkey hv => ?_, ?_⟩
  · exact not_isInternal_of_outputVariable hname houtput (hquestion.internal output hmem)
  · exact hkeys v hkey (hquestion.internal v hv)
  · rw [hquestion.unassigned]
    exact List.not_mem_nil

omit hs hname in
theorem isScoped_scalarColumn {field : FieldPath}
    (h : Projection.scalarColumn s model output field = .ok c) : c.IsScoped name := by
  obtain ⟨value, hvalue, h⟩ := Outcome.bind_eq_ok.mp h
  have hfree := Projection.isPatternFree_valueAt hvalue
  obtain rfl := Except.ok.inj h
  refine ⟨houtput, nofun, nofun, .inl ⟨output, _, rfl, rfl, ?_⟩⟩
  split
  · simp only [Expr.IsPatternFree, Expr.ArePatternFree, isPatternFree_string, hfree, and_self]
  · exact hfree

end Columns

/-- The column of a field or an aggregate obeys the rules. -/
theorem ColumnSource.isScoped_of_compile (hs : s.WellFormed) (hname : isFieldName name = true)
    {source : ColumnSource} (h : source.compile s model name = .ok c) : c.IsScoped name := by
  cases source with
  | field selector =>
    obtain ⟨output, houtput, h⟩ := Outcome.bind_eq_ok.mp h
    cases selector with
    | scalar field => exact isScoped_scalarColumn houtput h
    | array field => exact isScoped_valuesColumn hs hname houtput h
    | objects property members => exact isScoped_objectsColumn hs hname houtput h
  | aggregate a =>
    obtain ⟨output, houtput, rfl | ⟨path, ⟨r, h⟩ | h | h⟩⟩ := Projection.aggregateColumn_cases h
    · exact ⟨houtput, nofun, nofun, .inr ⟨rfl, rfl⟩⟩
    · exact isScoped_reducedColumn hs hname houtput h
    · exact isScoped_valuesColumn hs hname houtput h
    · exact isScoped_objectsColumn hs hname houtput h

/-! ## Bindings -/

/-- The document pattern binds the plain columns, in their order. -/
theorem variables_bindings {names : List String} {compiled : List CompiledColumn}
    (h : List.Forall₂ CompiledColumn.IsScoped names compiled) :
    elementVariables (compiled.filterMap (·.binding)) =
      (compiled.map (·.column)).filterMap Column.key? := by
  induction h with
  | nil => rfl
  | @cons name c names compiled hc _ ih =>
    rw [List.map_cons, List.filterMap_cons, List.filterMap_cons]
    rcases hc.binding with ⟨v, e, hkey, hbinding, -⟩ | ⟨hkey, hbinding⟩
    · rw [hkey, hbinding]
      exact congrArg (v :: ·) ih
    · rw [hkey, hbinding]
      exact ih

/-- Bindings of different variables obey the rules. -/
theorem areScoped_bindings (h : ∀ e ∈ es, ∃ v value, e = .bind v value ∧ value.IsScoped)
    (hnodup : (elementVariables es).Nodup) : AreScoped es := by
  induction es with
  | nil =>
    rw [AreScoped]
    trivial
  | cons e es ih =>
    rw [List.forall_mem_cons] at h
    obtain ⟨⟨v, value, rfl, hvalue⟩, h⟩ := h
    rw [elementVariables, Element.variables, List.singleton_append, List.nodup_cons] at hnodup
    have hdisjoint : List.Disjoint [v] (elementVariables es) :=
      List.singleton_disjoint.mpr hnodup.1
    rw [AreScoped, Element.IsScoped]
    exact ⟨hvalue, ih h hnodup.2, hdisjoint,
      List.disjoint_of_subset_right (elementAssignments_subset es) hdisjoint⟩

end DocGraph
