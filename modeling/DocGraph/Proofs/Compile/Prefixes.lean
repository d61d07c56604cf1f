import DocGraph.Compile.Projection
import DocGraph.Proofs.Compile.Hops
import DocGraph.Proofs.Select.Variables

/-!
# The hops of prefixes

The hops of a path bind the document and the nodes of its prefixes
(`PathPrefix.isNode_hops`), which are named after no field (`IsNode.isInternal`). Every prefix
that a required field needs is hopped to once, for whichever field comes first
(`exists_requiredHop`): fields that begin with the same segments share the nodes they lead to
(`PathPrefix.nodeAt_congr`). So the node at the end of a required field is bound
(`isBound_of_requiredHops`), and the hops of a path that goes on are those of its first part
and the ones after it (`Projection.hopsAfter_append`).
-/

namespace DocGraph

open Rdf (Term Variable)
open Sparql (Context Expr Node Solution)

variable {s : Schema} {model : String} {path : Path} {r : ResolvedPath} {n : Nat} {node : Node}

/-! ## Nodes -/

/-- Whether a variable is that of the document or of the node of a prefix. -/
def IsNode (v : Variable) : Prop :=
  v = rootVariable ∨ Role.node.Owns 0 v

theorem IsNode.isInternal {v : Variable} (h : IsNode v) : IsInternal v := by
  rcases h with rfl | h
  · exact isInternal_rootVariable
  · exact h.isInternal

namespace PathPrefix

/-- The node of a prefix is the document, its type, or a variable at the last segment that
is an hop. -/
theorem nodeAt_cases (h : nodeAt path r n = .ok node) :
    node = rootNode ∨ (∃ i, node = .term (.iri i)) ∨
      ∃ m step v, m < n ∧ r.steps[m]? = some step ∧ step.target ≠ .identity ∧
        ¬(m = 0 ∧ step.target = .type) ∧ variableAt .node (path.segments.take (m + 1)) = .ok v ∧
          node = .var v := by
  induction n with
  | zero => exact .inl (Except.ok.inj h).symm
  | succ n ih =>
    rw [nodeAt] at h
    split at h
    · exact .inl (Except.ok.inj h).symm
    · next step hstep =>
      split at h
      · rcases ih h with hroot | hterm | ⟨m, step', v, hm, hrest⟩
        · exact .inl hroot
        · exact .inr (.inl hterm)
        · exact .inr (.inr ⟨m, step', v, Nat.lt_succ_of_lt hm, hrest⟩)
      · next hid =>
        split at h
        · exact .inr (.inl ⟨_, (Except.ok.inj h).symm⟩)
        · next htype =>
          obtain ⟨v, hv, rfl⟩ := Outcome.map_eq_ok.mp h
          exact .inr (.inr ⟨n, step, v, Nat.lt_succ_self n, hstep, hid, htype, hv, rfl⟩)

variable (hs : s.WellFormed) (hr : s.resolve model path = .ok r)
include hs hr

theorem owns_of_node {m : Nat} {step : PathStep} {v : Variable} (hstep : r.steps[m]? = some step)
    (h : variableAt .node (path.segments.take (m + 1)) = .ok v) : Role.node.Owns 0 v := by
  have hlt : m < path.segments.length := by
    rw [← Schema.length_of_resolve hr]
    exact (List.getElem?_eq_some_iff.mp hstep).1
  have hplain := plain_of_isFieldSegment (Schema.isFieldSegment_of_resolve hs hr)
  exact (owns_variableAt rfl hplain hlt h).1.mono (Nat.zero_le m)

theorem isNode_node (h : nodeAt path r n = .ok node) : ∀ v ∈ node.variables, IsNode v := by
  intro v hv
  rcases nodeAt_cases h with rfl | ⟨i, rfl⟩ | ⟨m, step, w, -, hstep, -, -, hw, rfl⟩
  · exact .inl (List.mem_singleton.mp hv)
  · cases hv
  · rw [List.mem_singleton.mp hv]
    exact .inr (owns_of_node hs hr hstep hw)

end PathPrefix

/-! ## Variables of hops -/

theorem mem_elementVariables_flatten {ess : List (List Element)} {v : Variable} :
    v ∈ elementVariables ess.flatten ↔ ∃ es ∈ ess, v ∈ elementVariables es := by
  induction ess with
  | nil => simp [elementVariables]
  | cons es ess ih =>
    rw [List.flatten_cons, elementVariables_append, List.mem_append, ih, List.exists_mem_cons_iff]

/-- A hop binds nothing but its ends. -/
theorem variables_hop {subject object : Node} {step : PathStep} {es : List Element}
    (h : hop s subject step object = .ok es) :
    ∀ v ∈ elementVariables es, v ∈ subject.variables ∨ v ∈ object.variables := by
  intro v hv
  by_cases hid : step.target = .identity
  · simp only [hop, hid, Except.ok.injEq] at h
    rw [← h] at hv
    cases hv
  · rcases hop_cases h hid with ⟨p, rfl, -⟩ | ⟨p, classUri, rfl, -⟩
    · simpa [elementVariables, Element.variables, Element.statement, Sparql.Triple.variables,
        Sparql.Predicate.variables] using hv
    · simp only [elementVariables, Element.variables, Element.statement, Sparql.Triple.variables,
        Sparql.Predicate.variables, Node.variables, List.append_nil, List.mem_append] at hv
      rcases hv with (hv | hv) | hv
      · exact .inr hv
      · exact .inl hv
      · exact .inr hv

/-- A hop binds the variable at its end. -/
theorem isBound_of_hop {c : Context} {μ κ : Solution} {subject : Node} {step : PathStep}
    {v : Variable} {es : List Element} (h : hop s subject step (.var v) = .ok es)
    (hid : step.target ≠ .identity) (hc : c.given = .empty) (hκ : κ ∈ extendAll c es {μ}) :
    κ.IsBound v := by
  rcases hop_cases h hid with ⟨p, rfl, -⟩ | ⟨p, classUri, rfl, -⟩
  · exact (Sparql.Triple.isBound_of_mem_extensions hc (mem_extendAll_statement.mp hκ)).2 v rfl
  · rw [← List.singleton_append, mem_extendAll_append] at hκ
    obtain ⟨ν, hν, hκ⟩ := hκ
    exact isBound_of_mem_extendAll
      ((Sparql.Triple.isBound_of_mem_extensions hc (mem_extendAll_inverse.mp hν)).1 v rfl) hκ

namespace PathPrefix

/-- The hop of a prefix, if its step is one. -/
theorem hop_eq_ok {p : PathPrefix} {es : List Element} (h : p.hop s = .ok es) :
    es = [] ∨ ∃ m step subject object, p.length = m + 1 ∧ p.resolved.steps[m]? = some step ∧
      nodeAt p.path p.resolved m = .ok subject ∧
      nodeAt p.path p.resolved (m + 1) = .ok object ∧
      DocGraph.hop s subject step object = .ok es := by
  unfold hop at h
  split at h
  · exact .inl (Except.ok.inj h).symm
  · split at h
    · exact .inl (Except.ok.inj h).symm
    · next m hm =>
      split at h
      · exact .inl (Except.ok.inj h).symm
      · next step hstep =>
        obtain ⟨subject, hsubject, h⟩ := Outcome.bind_eq_ok.mp h
        obtain ⟨object, hobject, h⟩ := Outcome.bind_eq_ok.mp h
        exact .inr ⟨m, step, subject, object, hm, hstep, hsubject, hobject, h⟩

theorem isRootType_eq_false {m : Nat} {step : PathStep} (hstep : r.steps[m]? = some step)
    (htype : ¬(m = 0 ∧ step.target = .type)) : isRootType ⟨path, r, m + 1⟩ = false := by
  refine Bool.eq_false_iff.mpr fun hroot => htype ?_
  rw [isRootType, Bool.and_eq_true, List.head?_eq_getElem?] at hroot
  obtain rfl : m = 0 := Nat.succ.inj (beq_iff_eq.mp hroot.1)
  exact ⟨rfl, by simpa [hstep] using hroot.2⟩

/-- The hop of a prefix leads over its last step. -/
theorem nodes_of_hop {m : Nat} {step : PathStep} {es : List Element}
    (hstep : r.steps[m]? = some step) (htype : ¬(m = 0 ∧ step.target = .type))
    (h : hop s ⟨path, r, m + 1⟩ = .ok es) :
    ∃ subject object, nodeAt path r m = .ok subject ∧ nodeAt path r (m + 1) = .ok object ∧
      DocGraph.hop s subject step object = .ok es := by
  rw [hop, isRootType_eq_false hstep htype, if_neg Bool.false_ne_true] at h
  simp only [hstep] at h
  obtain ⟨subject, hsubject, h⟩ := Outcome.bind_eq_ok.mp h
  obtain ⟨object, hobject, h⟩ := Outcome.bind_eq_ok.mp h
  exact ⟨subject, object, hsubject, hobject, h⟩

/-- The hop to the variable of a prefix. -/
theorem hop_of_step {m : Nat} {step : PathStep} {v : Variable} {es : List Element}
    (hstep : r.steps[m]? = some step) (hid : step.target ≠ .identity)
    (htype : ¬(m = 0 ∧ step.target = .type))
    (hv : variableAt .node (path.segments.take (m + 1)) = .ok v)
    (h : hop s ⟨path, r, m + 1⟩ = .ok es) :
    ∃ subject, DocGraph.hop s subject step (.var v) = .ok es := by
  obtain ⟨subject, object, -, hobject, h⟩ := nodes_of_hop hstep htype h
  rw [nodeAt, hstep] at hobject
  dsimp only at hobject
  rw [if_neg hid, if_neg htype, hv] at hobject
  exact ⟨subject, Except.ok.inj hobject ▸ h⟩

theorem hops_eq_ok {ps : List PathPrefix} {es : List Element} (h : hops s ps = .ok es) :
    ∃ ess, List.Forall₂ (fun p es => hop s p = .ok es) ps ess ∧ es = ess.flatten := by
  obtain ⟨ess, hess, h⟩ := Outcome.bind_eq_ok.mp h
  exact ⟨ess, Outcome.mapM_eq_ok.mp hess, (Except.ok.inj h).symm⟩

/-- The hops of a path bind the nodes of its prefixes only. -/
theorem isNode_hops (hs : s.WellFormed) {ps : List PathPrefix} {es : List Element}
    (hps : ∀ p ∈ ps, s.resolve model p.path = .ok p.resolved) (h : hops s ps = .ok es) :
    ∀ v ∈ elementVariables es, IsNode v := by
  intro v hv
  obtain ⟨ess, hess, rfl⟩ := hops_eq_ok h
  obtain ⟨es, hes, hv⟩ := mem_elementVariables_flatten.mp hv
  obtain ⟨p, hp, hhop⟩ := exists_left_of_mem hess hes
  rcases hop_eq_ok hhop with rfl | ⟨m, step, subject, object, -, -, hsubject, hobject, hhop⟩
  · cases hv
  · rcases variables_hop hhop v hv with hv | hv
    · exact isNode_node hs (hps p hp) hsubject v hv
    · exact isNode_node hs (hps p hp) hobject v hv

theorem mem_ofPath {start : Nat} {p : PathPrefix} :
    p ∈ ofPath path r start ↔ ∃ n, start < n ∧ n ≤ path.length ∧ p = ⟨path, r, n⟩ := by
  simp only [ofPath, List.mem_map, List.mem_range'_1]
  constructor
  · rintro ⟨n, ⟨hstart, hn⟩, rfl⟩
    exact ⟨n, hstart, by omega, rfl⟩
  · rintro ⟨n, hstart, hn, rfl⟩
    exact ⟨n, ⟨hstart, by omega⟩, rfl⟩

end PathPrefix

/-- The hops after the first segments of a path bind the nodes of its prefixes only. -/
theorem isNode_hopsAfter (hs : s.WellFormed) {start : Nat} {es : List Element}
    (h : Projection.hopsAfter s model path start = .ok es) :
    ∀ v ∈ elementVariables es, IsNode v := by
  obtain ⟨r, hr, h⟩ := Outcome.bind_eq_ok.mp h
  have hresolve : ∀ p ∈ PathPrefix.ofPath path r start,
      s.resolve model p.path = .ok p.resolved := by
    intro p hp
    obtain ⟨n, -, -, rfl⟩ := PathPrefix.mem_ofPath.mp hp
    exact hr
  exact PathPrefix.isNode_hops hs hresolve h

theorem isInternal_hopsAfter (hs : s.WellFormed) {start : Nat} {es : List Element}
    (h : Projection.hopsAfter s model path start = .ok es) :
    ∀ v ∈ elementVariables es, IsInternal v :=
  fun v hv => (isNode_hopsAfter hs h v hv).isInternal

/-! ## Values -/

/-- The value at a path that resolves is that of its node. -/
theorem Projection.valueAt_eq_ok {value : Expr} (h : valueAt s model path = .ok value) :
    ∃ r node, s.resolve model path = .ok r ∧ PathPrefix.nodeAt path r path.length = .ok node ∧
      value = .ofNode node := by
  obtain ⟨r, hr, h⟩ := Outcome.bind_eq_ok.mp h
  obtain ⟨node, hnode, h⟩ := Outcome.bind_eq_ok.mp h
  exact ⟨r, node, hr, hnode, (Except.ok.inj h).symm⟩

/-- The hops of a path that resolves are those of its prefixes. -/
theorem Projection.hops_of_hopsAfter {start : Nat} {es : List Element}
    (hr : s.resolve model path = .ok r) (h : hopsAfter s model path start = .ok es) :
    PathPrefix.hops s (PathPrefix.ofPath path r start) = .ok es := by
  rwa [hopsAfter, hr, Outcome.ok_bind] at h

namespace PathPrefix

theorem ne_root_of_node (hs : s.WellFormed) (hr : s.resolve model path = .ok r) {m : Nat}
    {step : PathStep} {v : Variable} (hstep : r.steps[m]? = some step)
    (h : variableAt .node (path.segments.take (m + 1)) = .ok v) : v ≠ rootVariable := by
  rintro rfl
  exact Role.not_owns_root _ _ (owns_of_node hs hr hstep h)

/-- On the way to the document or its type there are no hops. -/
theorem hop_eq_nil (hs : s.WellFormed) (hr : s.resolve model path = .ok r)
    (h : nodeAt path r n = .ok node) (hnode : ∀ v, node = .var v → v = rootVariable)
    (hn : n ≤ path.length) {m : Nat} (hm : m ≤ n) {es : List Element}
    (hhop : hop s ⟨path, r, m⟩ = .ok es) : es = [] := by
  rcases hop_eq_ok hhop with rfl | ⟨k, step, subject, object, hk, hstep, -, -, hes⟩
  · rfl
  · obtain rfl : m = k + 1 := hk
    induction n with
    | zero => cases hm
    | succ n ih =>
      have hlt : n < r.steps.length := by
        rw [Schema.length_of_resolve hr]
        exact hn
      rw [nodeAt, List.getElem?_eq_getElem hlt] at h
      dsimp only at h
      split at h
      · next hid =>
        rcases Nat.lt_or_eq_of_le hm with hlt' | heq
        · exact ih h (Nat.le_of_succ_le hn) (Nat.le_of_lt_succ hlt')
        · obtain rfl := Nat.succ.inj heq
          rw [List.getElem?_eq_getElem hlt] at hstep
          rw [Option.some.inj hstep] at hid
          simp only [DocGraph.hop, hid, Except.ok.injEq] at hes
          exact hes.symm
      · split at h
        · next htype =>
          obtain ⟨rfl, htype⟩ := htype
          obtain rfl : k = 0 := by omega
          have hroot : isRootType ⟨path, r, 0 + 1⟩ = true := by
            simp [isRootType, List.head?_eq_getElem?, List.getElem?_eq_getElem hlt, htype]
          rw [hop, if_pos hroot] at hhop
          exact (Except.ok.inj hhop).symm
        · obtain ⟨v, hv, rfl⟩ := Outcome.map_eq_ok.mp h
          exact absurd (hnode v rfl) (ne_root_of_node hs hr (List.getElem?_eq_getElem hlt) hv)

end PathPrefix

/-- The value at a path is a variable that its hops lead to, or there are no hops. -/
theorem value_cases (hs : s.WellFormed) {value : Expr} {hops : List Element}
    (hvalue : Projection.valueAt s model path = .ok value)
    (hhops : Projection.hopsAfter s model path 0 = .ok hops) :
    (∃ v, value = .var v ∧ IsInternal v ∧ v ≠ rootVariable) ∨
      hops = [] ∧ (value = .var rootVariable ∨ ∃ i, value = .iri i) := by
  obtain ⟨r, node, hr, hnode, rfl⟩ := Projection.valueAt_eq_ok hvalue
  have hhops := Projection.hops_of_hopsAfter hr hhops
  have hnil (hroot : ∀ v, node = .var v → v = rootVariable) : hops = [] := by
    obtain ⟨ess, hess, rfl⟩ := PathPrefix.hops_eq_ok hhops
    refine List.flatten_eq_nil_iff.mpr fun es hes => ?_
    obtain ⟨p, hp, hhop⟩ := exists_left_of_mem hess hes
    obtain ⟨m, -, hm, rfl⟩ := PathPrefix.mem_ofPath.mp hp
    exact PathPrefix.hop_eq_nil hs hr hnode hroot le_rfl hm hhop
  rcases PathPrefix.nodeAt_cases hnode with rfl | ⟨i, rfl⟩ | ⟨m, step, v, -, hstep, -, -, hv, rfl⟩
  · exact .inr ⟨hnil fun v hv => (Node.var.inj hv).symm, .inl rfl⟩
  · exact .inr ⟨hnil nofun, .inr ⟨i, rfl⟩⟩
  · refine .inl ⟨v, rfl, ?_, PathPrefix.ne_root_of_node hs hr hstep hv⟩
    exact (PathPrefix.isNode_node hs hr hnode v (List.mem_singleton_self v)).isInternal

/-! ## Required hops -/

theorem exists_mem_firstByKey {α β : Type} [DecidableEq β] (key : α → β) {as : List α} {a : α}
    (h : a ∈ as) : ∃ b ∈ firstByKey key as, key b = key a := by
  induction as with
  | nil => cases h
  | cons a' as ih =>
    rw [firstByKey]
    rcases List.mem_cons.mp h with rfl | h
    · exact ⟨a, List.mem_cons_self, rfl⟩
    · obtain ⟨b, hb, hkey⟩ := ih h
      by_cases hsame : key b = key a'
      · exact ⟨a', List.mem_cons_self, by rw [← hsame, hkey]⟩
      · refine ⟨b, List.mem_cons_of_mem _ (List.mem_filter.mpr ⟨hb, ?_⟩), hkey⟩
        exact decide_eq_true hsame

theorem mem_of_mem_firstByKey {α β : Type} [DecidableEq β] {key : α → β} {as : List α} {a : α}
    (h : a ∈ firstByKey key as) : a ∈ as := by
  induction as with
  | nil => exact h
  | cons a' as ih =>
    rw [firstByKey] at h
    rcases List.mem_cons.mp h with rfl | h
    · exact List.mem_cons_self
    · exact List.mem_cons_of_mem _ (ih (List.mem_of_mem_filter h))

namespace Projection

variable {ts : List FieldTarget}

theorem targets_cons {e : String × Selector} {fields : Dict Selector}
    (h : targets s model (e :: fields) = .ok ts) :
    (∃ field r others, e.2 = .scalar field ∧ s.resolve model field.path = .ok r ∧
      targets s model fields = .ok others ∧ ts = ⟨field, r⟩ :: others) ∨
    (∀ field, e.2 ≠ .scalar field) ∧ targets s model fields = .ok ts := by
  obtain ⟨name, selector⟩ := e
  cases selector with
  | scalar field =>
    obtain ⟨r, hr, h⟩ := Outcome.bind_eq_ok.mp h
    obtain ⟨others, hothers, h⟩ := Outcome.bind_eq_ok.mp h
    exact .inl ⟨field, r, others, rfl, hr, hothers, (Except.ok.inj h).symm⟩
  | array | objects => exact .inr ⟨nofun, h⟩

theorem resolve_of_mem_targets {fields : Dict Selector} (h : targets s model fields = .ok ts) :
    ∀ t ∈ ts, s.resolve model t.path = .ok t.resolved := by
  induction fields generalizing ts with
  | nil =>
    rw [← Except.ok.inj h]
    exact nofun
  | cons e fields ih =>
    rcases targets_cons h with ⟨field, r, others, -, hr, hothers, rfl⟩ | ⟨-, h⟩
    · exact List.forall_mem_cons.mpr ⟨hr, ih hothers⟩
    · exact ih h

theorem exists_target {fields : Dict Selector} (h : targets s model fields = .ok ts) {name : String}
    {field : FieldPath} (hmem : (name, .scalar field) ∈ fields) : ∃ t ∈ ts, t.field = field := by
  induction fields generalizing ts with
  | nil => cases hmem
  | cons e fields ih =>
    rcases targets_cons h with ⟨field', r, others, he, -, hothers, rfl⟩ | ⟨hne, h⟩
    · rcases List.mem_cons.mp hmem with rfl | hmem
      · exact ⟨_, List.mem_cons_self, (Selector.scalar.inj he).symm⟩
      · obtain ⟨t, ht, htfield⟩ := ih hothers hmem
        exact ⟨t, List.mem_cons_of_mem _ ht, htfield⟩
    · rcases List.mem_cons.mp hmem with rfl | hmem
      · exact absurd rfl (hne field)
      · exact ih h hmem

/-- A prefix of a field that passes a test is among the first ones of their keys that do, for
this field or for another one that begins with the same segments. -/
theorem exists_hop_of_prefix {f : PathPrefix → Bool} {t : FieldTarget} (ht : t ∈ ts) {m : Nat}
    (hm : m < t.path.length) (hf : f ⟨t.path, t.resolved, m + 1⟩ = true) :
    ∃ t' ∈ ts, t'.path.segments.take (m + 1) = t.path.segments.take (m + 1) ∧
      ⟨t'.path, t'.resolved, m + 1⟩ ∈ firstByKey PathPrefix.key
        (ts.flatMap fun t => (PathPrefix.ofPath t.path t.resolved 0).filter f) := by
  have hprefix : (⟨t.path, t.resolved, m + 1⟩ : PathPrefix) ∈ ts.flatMap fun t =>
      (PathPrefix.ofPath t.path t.resolved 0).filter f := by
    refine List.mem_flatMap.mpr ⟨t, ht, List.mem_filter.mpr ⟨?_, hf⟩⟩
    exact PathPrefix.mem_ofPath.mpr ⟨m + 1, Nat.succ_pos m, hm, rfl⟩
  obtain ⟨p, hp, hkey⟩ := exists_mem_firstByKey PathPrefix.key hprefix
  obtain ⟨t', ht', hmem⟩ := List.mem_flatMap.mp (mem_of_mem_firstByKey hp)
  obtain ⟨n, -, hn, rfl⟩ := PathPrefix.mem_ofPath.mp (List.mem_of_mem_filter hmem)
  have htake : t'.path.segments.take n = t.path.segments.take (m + 1) := congrArg Path.segments hkey
  obtain rfl : n = m + 1 := by
    have hlength := congrArg List.length htake
    rw [List.length_take, List.length_take] at hlength
    change n ≤ t'.path.segments.length at hn
    change m < t.path.segments.length at hm
    omega
  exact ⟨t', ht', htake, hp⟩

/-- Every prefix of a required field is hopped to, for this field or another one that begins
with the same segments. -/
theorem exists_requiredHop {t : FieldTarget} (ht : t ∈ ts) (hreq : t.field.optionalFrom = none)
    {m : Nat} (hm : m < t.path.length) :
    ∃ t' ∈ ts, t'.path.segments.take (m + 1) = t.path.segments.take (m + 1) ∧
      ⟨t'.path, t'.resolved, m + 1⟩ ∈ requiredHops ts := by
  refine exists_hop_of_prefix ht hm (decide_eq_true (List.mem_flatMap.mpr ⟨t, ht, ?_⟩))
  refine List.mem_map.mpr ⟨m + 1, ?_, rfl⟩
  rw [FieldTarget.requiredLength, hreq, List.mem_range'_1]
  exact ⟨Nat.le_add_left 1 m, by rw [Option.getD_none]; omega⟩

end Projection

/-- Paths that begin with the same segments begin with the same steps. -/
theorem Schema.getElem?_of_resolve {path' : Path} {r' : ResolvedPath} {m : Nat}
    (h : s.resolve model path = .ok r) (h' : s.resolve model path' = .ok r')
    (htake : path.segments.take (m + 1) = path'.segments.take (m + 1)) :
    r.steps[m]? = r'.steps[m]? := by
  obtain ⟨hroot, hresolved⟩ := Schema.resolve_eq_ok.mp h
  obtain ⟨hroot', hresolved'⟩ := Schema.resolve_eq_ok.mp h'
  rw [← Option.some.inj (hroot.symm.trans hroot')] at hresolved'
  have hsteps := Schema.stepsFrom_take hresolved hresolved' htake
  rw [← List.getElem?_take_of_lt (Nat.lt_succ_self m), hsteps,
    List.getElem?_take_of_lt (Nat.lt_succ_self m)]

theorem take_of_take_succ {α : Type} {as bs : List α} (h : as.take (n + 1) = bs.take (n + 1)) :
    as.take n = bs.take n := by
  have htake := congrArg (List.take n) h
  rwa [List.take_take, List.take_take, Nat.min_eq_left (Nat.le_succ n)] at htake

namespace PathPrefix

variable {path' : Path} {r' : ResolvedPath} (h : s.resolve model path = .ok r)
  (h' : s.resolve model path' = .ok r')
include h h'

/-- Paths that begin with the same segments lead to the same node by them. -/
theorem nodeAt_congr (htake : path.segments.take n = path'.segments.take n) :
    nodeAt path r n = nodeAt path' r' n := by
  induction n with
  | zero => rfl
  | succ n ih =>
    have hroot : r.root = r'.root :=
      Option.some.inj ((Schema.resolve_eq_ok.mp h).1.symm.trans (Schema.resolve_eq_ok.mp h').1)
    rw [nodeAt, nodeAt, Schema.getElem?_of_resolve h h' htake, ih (take_of_take_succ htake), hroot,
      htake]

/-- Paths that begin with the same segments have the same hop at the last of them. -/
theorem hop_congr (htake : path.segments.take n = path'.segments.take n) :
    hop s ⟨path, r, n⟩ = hop s ⟨path', r', n⟩ := by
  cases n with
  | zero => rfl
  | succ n =>
    have hsteps := Schema.getElem?_of_resolve h h' htake
    have htype : isRootType ⟨path, r, n + 1⟩ = isRootType ⟨path', r', n + 1⟩ := by
      cases n with
      | zero => rw [isRootType, isRootType, List.head?_eq_getElem?, List.head?_eq_getElem?, hsteps]
      | succ n => rfl
    simp only [hop, htype, hsteps, nodeAt_congr h h' (take_of_take_succ htake),
      nodeAt_congr h h' htake]

end PathPrefix

theorem PathPrefix.ofPath_append (path further : Path) (r : ResolvedPath) :
    ofPath (path ++ further) r 0 =
      (List.range' 1 path.length).map (fun n => ⟨path ++ further, r, n⟩) ++
        ofPath (path ++ further) r path.length := by
  have hlength : (path ++ further).length = path.length + further.length := List.length_append
  rw [ofPath, ofPath, ← List.map_append, hlength, Nat.add_sub_cancel_left, Nat.sub_zero,
    Nat.add_comm path.length 1, List.range'_append_1]

/-- The hops of a path that goes on are those of its first part and the ones after it. -/
theorem Projection.hopsAfter_append {further : Path} {es fs : List Element}
    (hes : hopsAfter s model path 0 = .ok es)
    (hfs : hopsAfter s model (path ++ further) path.length = .ok fs) :
    hopsAfter s model (path ++ further) 0 = .ok (es ++ fs) := by
  obtain ⟨r, hr, hes⟩ := Outcome.bind_eq_ok.mp hes
  obtain ⟨r', hr', hfs⟩ := Outcome.bind_eq_ok.mp hfs
  obtain ⟨ess, hess, rfl⟩ := PathPrefix.hops_eq_ok hes
  obtain ⟨fss, hfss, rfl⟩ := PathPrefix.hops_eq_ok hfs
  rw [← List.flatten_append]
  refine Outcome.bind_eq_ok.mpr ⟨r', hr', Outcome.bind_eq_ok.mpr ⟨ess ++ fss, ?_, rfl⟩⟩
  rw [PathPrefix.ofPath_append, Outcome.mapM_eq_ok]
  refine List.rel_append (List.forall₂_map_left_iff.mpr ?_) hfss
  refine ((List.forall₂_and_left _ _).mpr
    ⟨fun n => List.mem_range'_1.mp, List.forall₂_map_left_iff.mp hess⟩).imp ?_
  rintro n es ⟨⟨-, hn⟩, hhop⟩
  rw [← hhop]
  refine PathPrefix.hop_congr hr' hr (List.take_append_of_le_length ?_)
  change n ≤ path.length
  omega

/-- The node at the end of a required field is bound. -/
theorem isBound_of_requiredHops {c : Context} {μ κ : Solution} {ts : List FieldTarget}
    {t : FieldTarget} {es : List Element} {v : Variable}
    (hts : ∀ t ∈ ts, s.resolve model t.path = .ok t.resolved)
    (hes : PathPrefix.hops s (Projection.requiredHops ts) = .ok es) (hc : c.given = .empty)
    (ht : t ∈ ts) (hreq : t.field.optionalFrom = none)
    (hnode : PathPrefix.nodeAt t.path t.resolved t.path.length = .ok (.var v))
    (hv : v ≠ rootVariable) (h : κ ∈ extendAll c es {μ}) : κ.IsBound v := by
  rcases PathPrefix.nodeAt_cases hnode with hroot | ⟨i, hi⟩ |
    ⟨m, step, w, hm, hstep, hid, htype, hw, he⟩
  · exact absurd (Node.var.inj hroot) hv
  · cases hi
  · obtain rfl := Node.var.inj he
    obtain ⟨t', ht', htake, hp⟩ := Projection.exists_requiredHop ht hreq hm
    have hstep' : t'.resolved.steps[m]? = some step := by
      rw [← hstep, Schema.getElem?_of_resolve (hts t' ht') (hts t ht) htake]
    obtain ⟨ess, hess, rfl⟩ := PathPrefix.hops_eq_ok hes
    obtain ⟨es, hmem, hhop⟩ := exists_right_of_mem hess hp
    obtain ⟨subject, hhop⟩ := PathPrefix.hop_of_step hstep' hid htype (htake ▸ hw) hhop
    exact isBound_of_mem hmem (fun μ κ hκ => isBound_of_hop hhop hid hc hκ) h

end DocGraph
