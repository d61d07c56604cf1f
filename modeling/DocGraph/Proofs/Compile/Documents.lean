import DocGraph.Proofs.Compile.Comparisons
import DocGraph.Proofs.Compile.Separate
import DocGraph.Proofs.Select.Filtered

/-!
# Document patterns

What a projection makes of the scalar fields of a query: the required elements and the
optional ones are triples between the document and the nodes of its paths, and the bindings
give the columns their values. No variable of a comparison is among theirs, so any filter
can stand between the required elements and the rest (`Projection.filterable`).
-/

namespace DocGraph

open Rdf (Iri Term Variable rdfType)
open Sparql (Context Expr Node Solution)

variable {s : Schema} {model name : String} {v : Variable} {es : List Element}

/-! ## Variables of comparisons -/

namespace FilterScope

variable {m n : Nat}

/-- The variables of comparisons are no columns. -/
theorem OwnsBetween.isInternal (h : OwnsBetween m n v) : IsInternal v := by
  obtain ⟨k, -, -, hk⟩ := h
  exact hk.isInternal

/-- No comparison owns the document or a node of its paths. -/
theorem not_ownsBetween_of_isNode (h : IsNode v) : ¬OwnsBetween m n v := by
  rintro ⟨k, hk⟩
  rcases h with rfl | h
  · exact not_ownsBetween_root m n ⟨k, hk⟩
  · cases h.role_eq hk.2.2

end FilterScope

/-! ## Hops -/

/-- Whether an element is a triple. -/
def Element.IsTriple : Element → Prop
  | .triple _ => True
  | .inverse .. => True
  | _ => False

theorem filtersOf_eq_nil (h : ∀ e ∈ es, e.IsTriple) : filtersOf es = [] := by
  refine List.filterMap_eq_nil_iff.mpr fun e he => ?_
  cases e with
  | filter => exact (h _ he).elim
  | _ => rfl

theorem assigned_eq_nil (h : ∀ e ∈ es, e.IsTriple) : assigned es = [] := by
  refine List.filterMap_eq_nil_iff.mpr fun e he => ?_
  cases e with
  | bind => exact (h _ he).elim
  | _ => rfl

theorem isTriple_hop {subject object : Node} {step : PathStep}
    (h : hop s subject step object = .ok es) : ∀ e ∈ es, e.IsTriple := by
  by_cases hid : step.target = .identity
  · simp only [hop, hid, Except.ok.injEq] at h
    rw [← h]
    exact List.forall_mem_nil _
  · rcases hop_cases h hid with ⟨p, rfl, -⟩ | ⟨p, classUri, rfl, -⟩
    · exact List.forall_mem_singleton.mpr trivial
    · exact List.forall_mem_cons.mpr ⟨trivial, List.forall_mem_singleton.mpr trivial⟩

theorem PathPrefix.isTriple_hops {ps : List PathPrefix} (h : PathPrefix.hops s ps = .ok es) :
    ∀ e ∈ es, e.IsTriple := by
  intro e he
  obtain ⟨ess, hess, rfl⟩ := hops_eq_ok h
  obtain ⟨es, hes, he⟩ := List.mem_flatten.mp he
  obtain ⟨p, -, hhop⟩ := exists_left_of_mem hess hes
  rcases hop_eq_ok hhop with rfl | ⟨m, step, subject, object, -, -, -, -, hhop⟩
  · cases he
  · exact isTriple_hop hhop e he

namespace Projection

variable {q : Spec} {p : Projection} {ts : List FieldTarget}

section Hops

variable (hts : ∀ t ∈ ts, s.resolve model t.path = .ok t.resolved)
include hts

theorem resolve_of_mem_ofPath {q : PathPrefix} {t : FieldTarget} (ht : t ∈ ts)
    (hq : q ∈ PathPrefix.ofPath t.path t.resolved 0) : s.resolve model q.path = .ok q.resolved := by
  obtain ⟨n, -, -, rfl⟩ := PathPrefix.mem_ofPath.mp hq
  exact hts t ht

theorem resolve_of_mem_requiredHops :
    ∀ q ∈ requiredHops ts, s.resolve model q.path = .ok q.resolved := by
  intro q hq
  obtain ⟨t, ht, hq⟩ := List.mem_flatMap.mp (mem_of_mem_firstByKey hq)
  exact resolve_of_mem_ofPath hts ht (List.mem_of_mem_filter hq)

theorem resolve_of_mem_optionalHops {group : String} :
    ∀ q ∈ optionalHops ts group, s.resolve model q.path = .ok q.resolved := by
  intro q hq
  obtain ⟨t, ht, hq⟩ := List.mem_flatMap.mp (mem_of_mem_firstByKey hq)
  exact resolve_of_mem_ofPath hts (List.mem_of_mem_filter ht) (List.mem_of_mem_filter hq)

omit hts in
/-- The optional elements are the blocks of the groups that have hops. -/
theorem exists_block_of_mem_optionals {optionals : List Element}
    (h : optionalElements s ts = .ok optionals) {e : Element} (he : e ∈ optionals) :
    ∃ group ∈ optionalGroups ts, ∃ block,
      PathPrefix.hops s (optionalHops ts group) = .ok block ∧ e = .optional block := by
  obtain ⟨blocks, hblocks, h⟩ := Outcome.bind_eq_ok.mp h
  obtain rfl := Except.ok.inj h
  obtain ⟨block, hblock, rfl⟩ := List.mem_map.mp he
  obtain ⟨group, hgroup, hhops⟩ :=
    exists_left_of_mem (Outcome.mapM_eq_ok.mp hblocks) (List.mem_of_mem_filter hblock)
  exact ⟨group, hgroup, block, hhops, rfl⟩

end Hops

/-- The value of a column depends on the variable of its node only. -/
theorem eval_value_merge {c : Context} {key μ : Solution} {node : Node} {optional : Bool}
    (h : ∀ v ∈ node.variables, key v = none) :
    (if optional then Expr.coalesce [.ofNode node, .string ""] else .ofNode node).eval c
        (key.merge μ) =
      (if optional then Expr.coalesce [.ofNode node, .string ""] else .ofNode node).eval c μ := by
  have hnode : (Expr.ofNode node).eval c (key.merge μ) = (Expr.ofNode node).eval c μ := by
    cases node with
    | term t => cases t <;> rfl
    | var v =>
      refine Context.value?_congr ?_
      rw [Solution.merge, h v (List.mem_singleton_self v), Option.none_or]
  cases optional with
  | false => exact hnode
  | true =>
    show List.findSome? id [(Expr.ofNode node).eval c (key.merge μ), some (.literal (.plain ""))] =
      List.findSome? id [(Expr.ofNode node).eval c μ, some (.literal (.plain ""))]
    rw [hnode]

section Compiled

variable (hs : s.WellFormed) (hp : compile s model q = .ok p)
include hp

theorem isTriple_required : ∀ e ∈ p.required, e.IsTriple := by
  obtain ⟨ts, compiled, -, hrequired, -⟩ := compile_eq_ok hp
  exact PathPrefix.isTriple_hops hrequired

include hs in
theorem isNode_required : ∀ v ∈ elementVariables p.required, IsNode v := by
  obtain ⟨ts, compiled, hts, hrequired, -⟩ := compile_eq_ok hp
  exact PathPrefix.isNode_hops hs (resolve_of_mem_requiredHops (resolve_of_mem_targets hts))
    hrequired

/-- The optional elements are blocks of triples. -/
theorem isTriple_optionals :
    ∀ e ∈ p.optionals, ∃ block, e = .optional block ∧ ∀ e ∈ block, e.IsTriple := by
  obtain ⟨ts, compiled, -, -, hoptionals, -⟩ := compile_eq_ok hp
  intro e he
  obtain ⟨group, -, block, hblock, rfl⟩ := exists_block_of_mem_optionals hoptionals he
  exact ⟨block, rfl, PathPrefix.isTriple_hops hblock⟩

include hs in
theorem isNode_optionals : ∀ v ∈ elementVariables p.optionals, IsNode v := by
  obtain ⟨ts, compiled, hts, -, hoptionals, -⟩ := compile_eq_ok hp
  intro v hv
  obtain ⟨e, he, hv⟩ := mem_elementVariables.mp hv
  obtain ⟨group, -, block, hblock, rfl⟩ := exists_block_of_mem_optionals hoptionals he
  exact PathPrefix.isNode_hops hs (resolve_of_mem_optionalHops (resolve_of_mem_targets hts))
    hblock v hv

/-! ## Bindings -/

/-- A binding gives the column of a scalar field the value at its path. -/
theorem binding_cases {e : Element} (he : e ∈ p.bindings) :
    ∃ name field output r node, (name, Selector.scalar field) ∈ q.fields ∧
      outputVariable name = .ok output ∧ s.resolve model field.path = .ok r ∧
      PathPrefix.nodeAt field.path r field.path.length = .ok node ∧
      e = .bind output (if field.isOptional then .coalesce [.ofNode node, .string ""]
        else .ofNode node) := by
  obtain ⟨ts, compiled, -, -, -, hcompiled, hbindings, -⟩ := compile_eq_ok hp
  rw [hbindings] at he
  obtain ⟨c, hc, hbinding⟩ := List.mem_filterMap.mp he
  obtain ⟨⟨name, source⟩, hsource, hcompile⟩ := exists_left_of_mem hcompiled hc
  have hscalar : source.scalar? ≠ none := fun hnone => by
    rw [(isValue_of_compile hcompile hnone).binding] at hbinding
    cases hbinding
  rcases source with (field | field | ⟨property, members⟩) | a
  · obtain ⟨output, houtput, hcompile⟩ := Outcome.bind_eq_ok.mp hcompile
    obtain ⟨value, hvalue, hcompile⟩ := Outcome.bind_eq_ok.mp hcompile
    obtain ⟨r, node, hr, hnode, rfl⟩ := valueAt_eq_ok hvalue
    obtain rfl := Except.ok.inj hcompile
    refine ⟨name, field, output, r, node, ?_, houtput, hr, hnode, (Option.some.inj hbinding).symm⟩
    rcases List.mem_append.mp hsource with hmem | hmem
    · obtain ⟨e', he', heq⟩ := List.mem_map.mp hmem
      obtain ⟨rfl, hselector⟩ := Prod.mk.inj heq
      rwa [← ColumnSource.field.inj hselector]
    · obtain ⟨e', -, heq⟩ := List.mem_map.mp hmem
      cases (Prod.mk.inj heq).2
  · exact absurd rfl hscalar
  · exact absurd rfl hscalar
  · exact absurd rfl hscalar

/-! ## Filters in the document pattern -/

variable (hnames : ∀ e ∈ q.sources, isFieldName e.1 = true)
include hs hnames

omit hs hp in
theorem isFieldName_of_mem_fields {name : String} {selector : Selector}
    (h : (name, selector) ∈ q.fields) : isFieldName name = true :=
  hnames (name, .field selector)
    (List.mem_append_left _ (List.mem_map.mpr ⟨(name, selector), h, rfl⟩))

/-- Any filter can stand between the required elements of a document pattern and the
rest. -/
theorem filterable {c : Context} {classUri : Iri} (hc : c.given = .empty) (m n : Nat) :
    Filterable c (IsInstanceOf c classUri) (FilterScope.OwnsBetween m n)
      (.statement rootNode rdfType (.term (.iri classUri)) :: p.required)
      (p.optionals ++ p.bindings) := by
  have houtput {v : Variable} {e : Expr} (he : .bind v e ∈ p.bindings) :
      ¬IsInternal v := by
    obtain ⟨name, field, output, r, node, hfield, houtput, -, -, he⟩ := binding_cases hp he
    obtain ⟨rfl, -⟩ := Element.bind.inj he
    exact not_isInternal_of_outputVariable (isFieldName_of_mem_fields hnames hfield) houtput
  have hbinding {e : Element} (he : e ∈ p.bindings) : ∃ v value, e = .bind v value := by
    obtain ⟨name, field, output, r, node, -, -, -, -, rfl⟩ := binding_cases hp he
    exact ⟨output, _, rfl⟩
  refine ⟨hc, fun μ hμ => ?_, ⟨?_, ?_⟩, fun key hkey => ⟨fun v hv => ?_, fun v e he μ => ?_⟩,
    fun hroot => ?_⟩
  · obtain ⟨ν, hν, hμ⟩ := mem_extendAll_cons.mp hμ
    obtain ⟨y, hy, rfl⟩ := (mem_extend_anchor hc).mp hν
    refine ⟨y, ?_, hy⟩
    refine (atDocument_anchor hc (FilterScope.not_ownsBetween_root m n) y).of_agree ⟨?_, ?_⟩
    · refine Context.value?_congr ?_
      rw [Solution.set_self]
      refine apply_of_mem_extendAll_of_some (Solution.set_self _ _ _) ?_ hμ
      rw [assigned_eq_nil (isTriple_required hp)]
      exact List.not_mem_nil
    · intro v hv
      refine Context.value?_congr (apply_of_mem_extendAll p.required _ μ (fun hmem => ?_) hμ)
      exact FilterScope.not_ownsBetween_of_isNode (isNode_required hs hp v hmem) hv
  · exact filtersOf_eq_nil (List.forall_mem_cons.mpr ⟨trivial, isTriple_required hp⟩)
  · rw [filtersOf_append]
    refine List.append_eq_nil_iff.mpr ⟨List.filterMap_eq_nil_iff.mpr fun e he => ?_,
      List.filterMap_eq_nil_iff.mpr fun e he => ?_⟩
    · obtain ⟨block, rfl, -⟩ := isTriple_optionals hp e he
      rfl
    · obtain ⟨v, value, rfl⟩ := hbinding he
      rfl
  · refine by_contra fun hne => ?_
    have howned := hkey v hne
    rw [elementVariables_append, List.mem_append] at hv
    rcases hv with hv | hv
    · exact FilterScope.not_ownsBetween_of_isNode (isNode_optionals hs hp v hv) howned
    · obtain ⟨e, he, hv⟩ := mem_elementVariables.mp hv
      obtain ⟨w, value, rfl⟩ := hbinding he
      rw [List.mem_singleton.mp hv] at howned
      exact houtput he howned.isInternal
  · rcases List.mem_append.mp he with he | he
    · obtain ⟨block, heq, -⟩ := isTriple_optionals hp _ he
      cases heq
    · obtain ⟨name, field, output, r, node, -, -, hr, hnode, heq⟩ := binding_cases hp he
      obtain ⟨rfl, rfl⟩ := Element.bind.inj heq
      refine eval_value_merge fun w hw => by_contra fun hne => ?_
      exact FilterScope.not_ownsBetween_of_isNode (PathPrefix.isNode_node hs hr hnode w hw)
        (hkey w hne)
  · obtain ⟨e, he, hassigned⟩ := List.mem_filterMap.mp hroot
    rcases List.mem_append.mp he with he | he
    · obtain ⟨block, rfl, -⟩ := isTriple_optionals hp e he
      cases hassigned
    · obtain ⟨v, value, rfl⟩ := hbinding he
      obtain rfl := Option.some.inj hassigned
      exact houtput he isInternal_rootVariable

end Compiled

end Projection

end DocGraph
