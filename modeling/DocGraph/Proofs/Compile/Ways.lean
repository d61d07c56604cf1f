import DocGraph.Proofs.Compile.Comparisons
import DocGraph.Proofs.Compile.Counted

/-!
# How often filters match

The elements of a comparison match a document in as many ways as the comparison holds for
it (`counted_comparison`), and so do those of a condition, by induction
(`counted_compile`). Full-text search is no different from the other tests
(`faithful_answers`).
-/

namespace DocGraph

open Rdf (Iri Literal Term Variable)
open Sparql (Context Expr Node Solution)

variable {s : Schema} {c : Context} {scope : Term → Prop} {n : Nat} {segments : List String}
  {steps : List PathStep} {ch : Chain} {es : List Element}

/-! ## Chains -/

open scoped Classical in
/-- The ways of a test are those of anything with one way at most for the same
documents. -/
theorem ite_eq_of_le_one {p : Prop} {ways : Nat} (hle : ways ≤ 1) (h : ways ≠ 0 ↔ p) :
    (if p then 1 else 0) = ways := by
  rw [← h]
  split <;> omega

/-- A chain that ends in a constant has a way for each walk to it. -/
theorem Counted.ofConstantChain (hw : Walkable segments steps) {t : Term}
    (h : chain s (.filter n) segments steps (some t) = .ok ch)
    (hiri : withoutIdentity steps = [] → ∃ i, t = .iri i) :
    Counted c scope ((Role.filter n).Owns 0) ch.elements
      fun x => waysTo s c.statements steps x t := by
  classical
  have hfaithful : Faithful c scope ((Role.filter n).Owns 0) ch.elements fun x =>
      Reaches s c.statements steps x t := Faithful.ofConstantChain hw h hiri
  rcases chain_cases h with ⟨t', -, hhops, rfl⟩ | ⟨hhops, hch⟩
  · refine (Counted.ofTests hfaithful (List.forall_mem_singleton.mpr rfl)).congr fun x _ => ?_
    exact ite_eq_of_le_one (waysTo_le_one (by rw [hhops]; exact Nat.zero_le 1))
      waysTo_ne_zero_iff
  · refine Counted.ofSolutions hfaithful (filtersOf_chainFrom hch hw.not_identity)
      fun {μ x} hμ => ?_
    have hbag := map_terminal_chainFrom rfl hw.plain hch hw.not_identity (length_hops_le hw)
      (.inr (hhops.resolve_left nofun)) hμ.root hμ.free
    have hcard := congrArg Multiset.card hbag
    rw [Multiset.card_map, Multiset.card_map] at hcard
    rw [hcard, waysTo, Multiset.count_eq_card_filter_eq]
    simp only [Option.some.injEq, forall_eq']
    exact congrArg _ (Multiset.filter_congr fun _ _ => eq_comm)

open scoped Classical in
/-- One hop to each of some terms matches once if the step leads to all of them. -/
theorem extendAll_hops {node : Node} {step : PathStep} (hid : step.target ≠ .identity)
    {values : List Term} {ends : List (List Element)}
    (h : List.Forall₂ (fun v es => hop s node step (.term v) = .ok es) values ends)
    {μ : Solution} {y : Term} (hy : node.value? c μ = some y) :
    extendAll c ends.flatten {μ} =
      if ∀ v ∈ values, step.Leads s c.statements y v then {μ} else 0 := by
  induction h with
  | nil => exact (if_pos nofun).symm
  | @cons v es values ends hv _ ih =>
    rw [List.flatten_cons, extendAll_append, extendAll_hop_known hv hid hy rfl]
    simp only [List.forall_mem_cons]
    by_cases hleads : step.Leads s c.statements y v
    · rw [if_pos hleads, ih]
      exact if_congr (and_iff_right hleads).symm rfl rfl
    · rw [if_neg hleads, if_neg fun h => hleads h.1, extendAll_eq_bind, Multiset.zero_bind]

/-- The chains of `$all` have a way for each walk to an entity that has every value. -/
theorem Counted.ofAllOf {f : FilterScope} (hw : Walkable segments steps) {values : List Term}
    (h : f.allOf (.filter n) segments steps values = .ok es)
    (hiri : withoutIdentity steps = [] → ∀ v ∈ values, ∃ i, v = .iri i) :
    Counted c scope ((Role.filter n).Owns 0) es
      fun x => waysToAll f.schema c.statements steps x values := by
  classical
  have hfaithful : Faithful c scope ((Role.filter n).Owns 0) es fun x =>
      ReachesAll f.schema c.statements steps x values := Faithful.ofAllOf hw h hiri
  rcases FilterScope.allOf_cases h with ⟨hhops, rfl⟩ |
    ⟨front, last, parent, ends, hfront, hparent, hends, rfl⟩
  · refine (Counted.ofTests hfaithful fun e he => ?_).congr fun x _ => ?_
    · obtain ⟨v, -, rfl⟩ := List.mem_map.mp he
      rfl
    · exact ite_eq_of_le_one (waysToAll_le_one (by rw [hhops]; exact Nat.zero_le 1))
        waysToAll_ne_zero_iff
  · obtain ⟨hw', hself, hid⟩ := hw.front hfront
    have hch := chain_none hparent
    have hfilters : filtersOf (parent.elements ++ ends.flatten) = [] := by
      rw [filtersOf_append, filtersOf_chainFrom hch hw'.not_identity, filtersOf_hops hid hends,
        List.append_nil]
    refine Counted.ofSolutions hfaithful hfilters fun {μ x} hμ => ?_
    have hbag := map_terminal_chainFrom rfl hw.plain hch hw'.not_identity (length_hops_le hw')
      (.inl rfl) hμ.root hμ.free
    rw [Multiset.filter_eq_self.mpr fun _ _ => nofun, hself] at hbag
    -- every solution of the parent has a value, which the last hops test
    have hends' : ∀ ν ∈ extendAll c parent.elements {μ}, extendAll c ends.flatten {ν} =
        if ∃ y, parent.terminal.value? c ν = some y ∧
          ∀ v ∈ values, last.Leads f.schema c.statements y v then {ν} else 0 := by
      intro ν hν
      have hmem := Multiset.mem_map_of_mem (parent.terminal.value? c ·) hν
      rw [hbag] at hmem
      obtain ⟨y, -, hy⟩ := Multiset.mem_map.mp hmem
      rw [extendAll_hops hid hends hy.symm]
      simp only [← hy, Option.some.injEq, exists_eq_left']
    have hcount := congrArg (Multiset.countP fun o => ∃ y, o = some y ∧
      ∀ v ∈ values, last.Leads f.schema c.statements y v) hbag
    rw [Multiset.countP_map, Multiset.countP_map] at hcount
    rw [waysToAll, hfront, List.dropLast_concat, List.getLast?_concat, extendAll_append,
      extendAll_eq_bind, Multiset.bind_congr hends', ← Multiset.filter_eq_bind, hcount,
      Multiset.countP_eq_card_filter]
    simp only [Option.some.injEq, exists_eq_left', Option.toList_some, reaches_singleton]

/-! ## Full-text search -/

/-- A triple with a constant tests its subject. -/
theorem TestsNode.statement (c : Context) (node : Node) (p : Iri) (t : Term) :
    TestsNode c node [.statement node p (.term t)] fun z => ⟨z, p, t⟩ ∈ c.statements := by
  have hmem {μ κ : Solution} {z : Term} (hz : node.value? c μ = some z) :
      κ ∈ extendAll c [.statement node p (.term t)] {μ} ↔ ⟨z, p, t⟩ ∈ c.statements ∧ κ = μ := by
    rw [mem_extendAll_statement, Sparql.mem_extensions_known hz rfl]
  exact ⟨fun hz hκ => ((hmem hz).mp hκ).2, fun hz hκ _ _ => ((hmem hz).mp hκ).1,
    fun hz hp => ⟨(hmem hz).mpr ⟨hp, rfl⟩, fun _ _ => nofun⟩⟩

theorem TestsNode.append {node : Node} {fs : List Element} {passes passes' : Term → Prop}
    (h : TestsNode c node es passes) (h' : TestsNode c node fs passes') :
    TestsNode c node (es ++ fs) fun z => passes z ∧ passes' z := by
  refine ⟨fun {μ κ z} hz hκ => ?_, fun {μ κ κ' z} hz hκ hκ' hf => ?_, fun {μ z} hz hp => ?_⟩
  · obtain ⟨ν, hν, hνκ⟩ := mem_extendAll_append.mp hκ
    rw [h.frame hz hν] at hνκ
    exact h'.frame hz hνκ
  · obtain ⟨ν, hν, hνκ⟩ := mem_extendAll_append.mp hκ
    rw [filtersOf_append, List.forall_mem_append] at hf
    have hνμ := h.frame hz hν
    rw [hνμ] at hν hνκ
    exact ⟨h.sound hz hν hκ' hf.1, h'.sound hz hνκ hκ' hf.2⟩
  · obtain ⟨hmem, hall⟩ := h.complete hz hp.1
    obtain ⟨hmem', hall'⟩ := h'.complete hz hp.2
    refine ⟨mem_extendAll_append.mpr ⟨μ, hmem, hmem'⟩, fun κ' hκ' => ?_⟩
    rw [filtersOf_append, List.forall_mem_append]
    exact ⟨hall κ' hκ', hall' κ' hκ'⟩

namespace FilterScope

variable {f : FilterScope} {cmp : Comparison}

theorem answers_of_ne_search {store : Sparql.Store} {g : Rdf.Graph} {exact : Comparison → Bool}
    {x : Term} (h : cmp.operator.positive ≠ .search) :
    f.Answers store g exact cmp x ↔ f.Satisfies store g exact cmp x := by
  unfold Answers
  split
  · next hop => exact absurd (by rw [hop]; rfl) h
  · next hop => exact absurd (by rw [hop]; rfl) h
  · exact Iff.rfl

theorem answers_of_search {store : Sparql.Store} {g : Rdf.Graph} {exact : Comparison → Bool}
    {x : Term} (h : cmp.operator.positive = .search) :
    f.Answers store g exact cmp x ↔
      if cmp.operator.polarity = .negative then ¬f.Searches g cmp x else f.Searches g cmp x := by
  unfold Answers
  split
  · next hop => rw [hop]; exact Iff.rfl
  · next hop => rw [hop]; exact Iff.rfl
  · next hsearch hnotSearch =>
    revert h hsearch hnotSearch
    cases cmp.operator <;> simp [Operator.positive, Operator.polarity, Operator.inverse]

/-- The elements of a full-text search ask for the documents that it finds. -/
theorem faithful_search {r : ResolvedPath} {text : String}
    (hr : f.schema.resolve f.model cmp.path = .ok r) (hw : Walkable cmp.path.segments r.steps)
    (hsearch : cmp.operator.positive = .search) (htext : cmp.operand = .str text)
    (hch : chain f.schema (.filter n) cmp.path.segments r.steps none = .ok ch) :
    Faithful c scope ((Role.filter n).Owns 0)
      (existence (cmp.operator.polarity = .negative) (ch.elements ++
        [.statement ch.terminal f.fullText.search (.term (.literal (.plain text))),
          .statement ch.terminal f.fullText.matchAllTerms (.term (.literal (.plain "true")))]))
      (f.Answers c.store c.statements f.isInlined cmp) := by
  have hinner (μ : Solution) : Faithful (c.substituted μ) scope ((Role.filter n).Owns 0)
      (ch.elements ++ [.statement ch.terminal f.fullText.search (.term (.literal (.plain text))),
        .statement ch.terminal f.fullText.matchAllTerms (.term (.literal (.plain "true")))])
      fun x => ∃ z, Reaches f.schema c.statements r.steps x z ∧
        ⟨z, f.fullText.search, .literal (.plain text)⟩ ∈ c.statements ∧
          ⟨z, f.fullText.matchAllTerms, .literal (.plain "true")⟩ ∈ c.statements :=
    Faithful.ofChain hw hch ((TestsNode.statement _ _ _ _).append (TestsNode.statement _ _ _ _))
  refine (Faithful.existence _ hinner).congr fun x _ => ?_
  rw [answers_of_search hsearch]
  simp only [Searches, hr, htext, Except.ok.injEq, Json.Value.str.injEq, exists_and_left,
    exists_eq_left', decide_eq_true_iff]

/-- The elements of a comparison ask for the documents that it asks for. -/
theorem faithful_answers (hs : f.schema.WellFormed) (h : f.comparison n cmp = .ok es)
    (c : Context) : Faithful c scope ((Role.filter n).Owns 0) es
      (f.Answers c.store c.statements f.isInlined cmp) := by
  by_cases hsearch : cmp.operator.positive = .search
  · obtain ⟨r, hr, h⟩ := comparison_eq_ok h
    obtain ⟨ch, text, htext, hch, rfl⟩ := h.of_search hsearch
    exact faithful_search hr (walkable_of_resolve hs hr) hsearch htext hch
  · exact (faithful_comparison hs h hsearch c).congr fun x _ => (answers_of_ne_search hsearch).symm

/-! ## Comparisons -/

theorem isFilter_existence (negated : Bool) (es : List Element) :
    ∀ e ∈ existence negated es, e.filter?.isSome = true :=
  List.forall_mem_singleton.mpr rfl

/-- The elements of a comparison match a document in as many ways as the comparison
holds for it. -/
theorem counted_comparison (hs : f.schema.WellFormed) (h : f.comparison n cmp = .ok es)
    (c : Context) : Counted c scope ((Role.filter n).Owns 0) es
      fun x => f.weight c.store c.statements x cmp := by
  -- what is compiled to filters holds in one way at most
  have htests (hinlined : f.isInlined cmp = false) (hall : cmp.operator ≠ .all)
      (hes : ∀ e ∈ es, e.filter?.isSome = true) : Counted c scope ((Role.filter n).Owns 0) es
        fun x => f.weight c.store c.statements x cmp :=
    (Counted.ofTests (faithful_answers hs h c) hes).congr fun x _ => by
      rw [weight, hinlined, if_neg Bool.false_ne_true, if_neg hall]
  obtain ⟨r, hr, hcompiled⟩ := comparison_eq_ok h
  have hw := walkable_of_resolve hs hr
  have hne {op : Operator} (hop : cmp.operator.positive ≠ op.positive) : cmp.operator ≠ op :=
    ne_of_apply_ne Operator.positive hop
  cases hcompiled with
  | inlined hinlined ht hch =>
    refine (Counted.ofConstantChain hw hch fun hhops =>
      Schema.exists_iri_of_encode hr hhops ht).congr fun x _ => ?_
    simp only [weight, hinlined, if_true, hr, ht]
  | all hall hts hinner =>
    have hinlined : f.isInlined cmp = false := isInlined_of_ne (hne (by rw [hall]; decide))
    by_cases hneg : cmp.operator.polarity = .negative
    · rw [if_pos hneg] at htests ⊢
      refine htests hinlined (fun hop => ?_) (isFilter_existence _ _)
      rw [hop] at hneg
      cases hneg
    · rw [if_neg hneg]
      have hop : cmp.operator = .all := (Operator.positive_eq_self hneg).symm.trans hall
      refine (Counted.ofAllOf hw hinner fun hhops =>
        exists_iri_of_constants hr hts hhops).congr fun x _ => ?_
      simp only [weight, hinlined, Bool.false_eq_true, if_false, hop, if_true, hr, hts]
  | itself hop =>
    refine htests (isInlined_of_ne (hne (by rw [hop]; decide))) (hne (by rw [hop]; decide)) ?_
    split
    · exact List.forall_mem_singleton.mpr rfl
    · exact nofun
  | present hop | search hop =>
    exact htests (isInlined_of_ne (hne (by rw [hop]; decide))) (hne (by rw [hop]; decide))
      (isFilter_existence _ _)
  | tested hinlined hall => exact htests hinlined (hne hall) (isFilter_existence _ _)

/-! ## Conditions -/

/-- What holds of the elements of a condition whose comparisons are numbered from `m` to
`n - 1`. -/
structure CompiledWays (c : Context) (classUri : Iri) (m n : Nat) (es : List Element)
    (ways : Term → Nat) : Prop where
  le : m ≤ n
  counted : Counted c (IsInstanceOf c classUri) (OwnsBetween m n) es ways

mutual

/-- The elements of a condition match a document in as many ways as the condition holds
for it. -/
theorem counted_compile {classUri : Iri} (hset : Setting f c classUri) :
    ∀ (cond : Condition) (negated : Bool) (m n : Nat) (es : List Element),
      f.compile negated m cond = .ok (es, n) → CompiledWays c classUri m n es
        fun x => cond.ways (f.weight c.store c.statements x) negated
  | .compare cmp, negated, m, n, es, h => by
    obtain ⟨hhere, rfl⟩ := compile_compare_eq_ok.mp h
    exact ⟨Nat.le_succ m, (counted_comparison hset.wellFormed hhere c).mono fun v hv =>
      ⟨m, Nat.le_refl m, Nat.lt_succ_self m, hv⟩⟩
  | .and children, negated, m, n, es, h => by
    cases negated
    · exact counted_compileAll hset children false m n es h
    · exact counted_compileUnion hset children true m n es h
  | .or children, negated, m, n, es, h => by
    cases negated
    · exact counted_compileUnion hset children false m n es h
    · exact counted_compileAll hset children true m n es h
  | .not child, negated, m, n, es, h => counted_compile hset child (!negated) m n es h

theorem counted_compileAll {classUri : Iri} (hset : Setting f c classUri) :
    ∀ (conds : List Condition) (negated : Bool) (m n : Nat) (es : List Element),
      f.compileAll negated m conds = .ok (es, n) → CompiledWays c classUri m n es fun x =>
        Condition.foldList .counting (f.weight c.store c.statements x) negated true conds
  | [], negated, m, n, es, h => by
    obtain ⟨rfl, rfl⟩ := Prod.mk.inj (Except.ok.inj h)
    exact ⟨Nat.le_refl m, Counted.nil⟩
  | cond :: rest, negated, m, n, es, h => by
    obtain ⟨here, k, others, hhere, hothers, rfl⟩ := compileAll_cons_eq_ok.mp h
    have h₁ := counted_compile hset cond negated m k here hhere
    have h₂ := counted_compileAll hset rest negated k n others hothers
    refine ⟨h₁.le.trans h₂.le, (h₁.counted.append h₂.counted fun v hv => hv.disjoint).mono ?_⟩
    rintro v (hv | hv)
    · exact hv.mono (Nat.le_refl m) h₂.le
    · exact hv.mono h₁.le (Nat.le_refl n)

theorem counted_compileUnion {classUri : Iri} (hset : Setting f c classUri)
    (conds : List Condition) (negated : Bool) (m n : Nat) (es : List Element)
    (h : (do return unionElement (← f.compileBranches negated (← f.anchor) m conds)) =
      Except.ok (es, n)) : CompiledWays c classUri m n es fun x =>
        Condition.foldList .counting (f.weight c.store c.statements x) negated false conds := by
  obtain ⟨anchor, branches, hanchor, hbranches, rfl⟩ := union_eq_ok.mp h
  obtain rfl := Except.ok.inj (hset.anchor_eq.symm.trans hanchor)
  obtain ⟨hle, bodies, weights, rfl, hcounted, hweights⟩ :=
    counted_compileBranches hset conds negated m n branches hbranches
  exact ⟨hle, (Counted.union hset.given_eq (not_ownsBetween_root m n) hcounted).congr
    fun x _ => hweights x⟩

theorem counted_compileBranches {classUri : Iri} (hset : Setting f c classUri) :
    ∀ (conds : List Condition) (negated : Bool) (m n : Nat) (branches : List (List Element)),
      f.compileBranches negated (.statement rootNode Rdf.rdfType (.term (.iri classUri))) m conds =
        .ok (branches, n) →
      m ≤ n ∧ ∃ bodies weights, branches = bodies.map (anchored classUri) ∧
        List.Forall₂ (Counted c (IsInstanceOf c classUri) (OwnsBetween m n)) bodies weights ∧
        ∀ x, (weights.map (· x)).sum =
          Condition.foldList .counting (f.weight c.store c.statements x) negated false conds
  | [], negated, m, n, branches, h => by
    obtain ⟨rfl, rfl⟩ := Prod.mk.inj (Except.ok.inj h)
    exact ⟨Nat.le_refl m, [], [], rfl, .nil, fun x => rfl⟩
  | cond :: rest, negated, m, n, branches, h => by
    obtain ⟨here, k, others, hhere, hothers, rfl⟩ := compileBranches_cons_eq_ok.mp h
    have h₁ := counted_compile hset cond negated m k here hhere
    obtain ⟨hle, bodies, weights, rfl, hbodies, hweights⟩ :=
      counted_compileBranches hset rest negated k n others hothers
    refine ⟨h₁.le.trans hle, here :: bodies, _ :: weights, rfl, .cons
      (h₁.counted.mono fun v hv => hv.mono (Nat.le_refl m) hle)
      (hbodies.imp fun _ _ hb => hb.mono fun v hv => hv.mono h₁.le (Nat.le_refl n)), fun x => ?_⟩
    rw [List.map_cons, List.sum_cons, hweights]
    rfl

end

end FilterScope

end DocGraph
