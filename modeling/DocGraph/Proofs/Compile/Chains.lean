import DocGraph.Proofs.Compile.CompiledFilters
import DocGraph.Proofs.Compile.Faithful

/-!
# Chains that ask about the document

Chains are faithful: a chain with tests at its end asks for a value at its path
that passes them (`Faithful.ofChain`), a chain that ends in a constant asks that
its path reaches it (`Faithful.ofConstantChain`), and chains that share all hops
but the last ask for one entity with every value (`Faithful.ofAllOf`).
-/

namespace DocGraph

open Rdf (Graph Term Variable)
open Sparql (Context Expr Node Solution Store)

/-! ## The hops of a path -/

variable {s : Schema} {g : Graph} {c : Context} {scope : Term → Prop} {x y z : Term}

theorem reaches_append {front back : List PathStep} :
    Reaches s g (front ++ back) x z ↔ ∃ y, Reaches s g front x y ∧ Reaches s g back y z := by
  induction front generalizing x with
  | nil => exact ⟨fun h => ⟨x, rfl, h⟩, fun ⟨y, hxy, h⟩ => hxy ▸ h⟩
  | cons step front ih =>
    simp only [List.cons_append, Reaches, ih]
    constructor
    · rintro ⟨y, hy, w, hw, hz⟩
      exact ⟨w, ⟨y, hy, hw⟩, hz⟩
    · rintro ⟨w, ⟨y, hy, hw⟩, hz⟩
      exact ⟨y, hy, w, hw, hz⟩

theorem reaches_singleton {step : PathStep} : Reaches s g [step] x z ↔ step.Leads s g x z := by
  simp only [Reaches, exists_eq_right]

/-- The steps of a path lead where its hops do. -/
theorem reaches_withoutIdentity {steps : List PathStep} :
    Reaches s g (withoutIdentity steps) x z ↔ Reaches s g steps x z := by
  unfold withoutIdentity
  split
  · next last hlast =>
    split
    · next hid =>
      obtain ⟨front, rfl⟩ := List.getLast?_eq_some_iff.mp hlast
      have hleads (w : Term) : last.Leads s g w z ↔ w = z := by
        rw [PathStep.Leads, hid]
      simp only [List.dropLast_concat, reaches_append, reaches_singleton, hleads, exists_eq_right]
    · exact Iff.rfl
  · exact Iff.rfl

theorem length_withoutIdentity_le (steps : List PathStep) :
    (withoutIdentity steps).length ≤ steps.length := by
  unfold withoutIdentity
  split
  · split
    · rw [List.length_dropLast]
      omega
    · exact Nat.le_refl _
  · exact Nat.le_refl _

theorem withoutIdentity_eq_self {steps : List PathStep}
    (h : ∀ step ∈ steps, step.target ≠ .identity) : withoutIdentity steps = steps := by
  unfold withoutIdentity
  split
  · next last hlast => rw [if_neg (h last (List.mem_of_getLast? hlast))]
  · rfl

/-- What a chain is made for: the segments of a path and its steps. -/
structure Walkable (segments : List String) (steps : List PathStep) : Prop where
  plain : Plain segments
  not_identity : ∀ step ∈ withoutIdentity steps, step.target ≠ .identity
  length_le : steps.length ≤ segments.length

theorem walkable_of_resolve {model : String} {path : Path} {r : ResolvedPath} (hs : s.WellFormed)
    (h : s.resolve model path = .ok r) : Walkable path.segments r.steps :=
  ⟨plain_of_isFieldSegment (Schema.isFieldSegment_of_resolve hs h),
    Schema.not_identity_of_mem_withoutIdentity h, (Schema.length_of_resolve h).le⟩

/-! ## Chains that ask -/

/-- Whether elements test the term that a node stands for. -/
structure TestsNode (c : Context) (node : Node) (es : List Element) (passes : Term → Prop) :
    Prop where
  frame : ∀ {μ κ z}, node.value? c μ = some z → κ ∈ extendAll c es {μ} → κ = μ
  sound : ∀ {μ κ κ' z}, node.value? c μ = some z → κ ∈ extendAll c es {μ} →
    node.value? c κ' = some z → (∀ e ∈ filtersOf es, e.Holds c κ') → passes z
  complete : ∀ {μ z}, node.value? c μ = some z → passes z →
    μ ∈ extendAll c es {μ} ∧ ∀ κ', node.value? c κ' = some z → ∀ e ∈ filtersOf es, e.Holds c κ'

theorem TestsNode.nil (c : Context) (node : Node) : TestsNode c node [] fun _ => True where
  frame _ hκ := mem_extendAll_nil.mp hκ
  sound _ _ _ _ := trivial
  complete _ _ := ⟨mem_extendAll_nil.mpr rfl, fun _ _ => nofun⟩

theorem TestsNode.filter {node : Node} {e : Expr} {passes : Term → Prop}
    (h : ∀ κ z, node.value? c κ = some z → (e.Holds c κ ↔ passes z)) :
    TestsNode c node [.filter e] passes where
  frame _ hκ := by
    rw [extendAll, Element.extend] at hκ
    exact mem_extendAll_nil.mp hκ
  sound _ _ hκ' hf := (h _ _ hκ').mp (hf e List.mem_cons_self)
  complete _ hz := by
    refine ⟨by rw [extendAll, Element.extend]; exact mem_extendAll_nil.mpr rfl, fun κ' hκ' => ?_⟩
    simp only [filtersOf, List.filterMap_cons, Element.filter?, List.filterMap_nil,
      List.mem_singleton, forall_eq]
    exact (h κ' _ hκ').mpr hz

theorem filtersOf_hops {node : Node} {step : PathStep} (hid : step.target ≠ .identity)
    {values : List Term} {ends : List (List Element)}
    (h : List.Forall₂ (fun v es => hop s node step (.term v) = .ok es) values ends) :
    filtersOf ends.flatten = [] := by
  induction h with
  | nil => rfl
  | cons hv _ ih => rw [List.flatten_cons, filtersOf_append, filtersOf_hop hv hid, ih]; rfl

/-- One hop to each of some terms tests that the step leads to all of them. -/
theorem TestsNode.hops {node : Node} {step : PathStep} (hid : step.target ≠ .identity)
    {values : List Term} {ends : List (List Element)}
    (h : List.Forall₂ (fun v es => hop s node step (.term v) = .ok es) values ends) :
    TestsNode c node ends.flatten fun y => ∀ v ∈ values, step.Leads s c.statements y v := by
  have hmem {μ κ : Solution} {y : Term} (hy : node.value? c μ = some y) :
      κ ∈ extendAll c ends.flatten {μ} ↔
        (∀ v ∈ values, step.Leads s c.statements y v) ∧ κ = μ := by
    induction h with
    | nil => simp [mem_extendAll_nil]
    | cons hv _ ih =>
      rw [List.flatten_cons, mem_extendAll_append, List.forall_mem_cons, and_assoc]
      simp only [mem_extendAll_hop_known hv hid hy rfl]
      constructor
      · rintro ⟨ν, ⟨hleads, rfl⟩, hκ⟩
        exact ⟨hleads, ih.mp hκ⟩
      · rintro ⟨hleads, hκ⟩
        exact ⟨μ, ⟨hleads, rfl⟩, ih.mpr hκ⟩
  refine ⟨fun hz hκ => ((hmem hz).mp hκ).2, fun hz hκ _ _ => ((hmem hz).mp hκ).1,
    fun hz hp => ⟨(hmem hz).mpr ⟨hp, rfl⟩, fun _ _ => ?_⟩⟩
  rw [filtersOf_hops hid h]
  exact nofun

variable {n : Nat} {segments : List String} {steps : List PathStep} {ch : Chain}

theorem chain_none (h : chain s (.filter n) segments steps none = .ok ch) :
    chainFrom s (.filter n) segments none rootNode 0 (withoutIdentity steps) = .ok ch := by
  rcases chain_cases h with ⟨t, ht, -⟩ | ⟨-, h⟩
  · cases ht
  · exact h

theorem length_hops_le (hw : Walkable segments steps) :
    0 + (withoutIdentity steps).length ≤ segments.length :=
  (Nat.zero_add _).trans_le ((length_withoutIdentity_le steps).trans hw.length_le)

theorem elements_ne_nil_of_chainFrom {role : Role} {constant : Option Term} {subject : Node}
    {taken : Nat} (h : chainFrom s role segments constant subject taken steps = .ok ch)
    (hid : ∀ step ∈ steps, step.target ≠ .identity) (hne : steps ≠ []) : ch.elements ≠ [] := by
  obtain ⟨step, rest, rfl⟩ := List.exists_cons_of_ne_nil hne
  rw [List.forall_mem_cons] at hid
  have hhop {object : Node} {es : List Element} (h : hop s subject step object = .ok es) :
      es ≠ [] := by
    rcases hop_cases h hid.1 with ⟨p, rfl, -⟩ | ⟨p, classUri, rfl, -⟩ <;> exact List.cons_ne_nil _ _
  rcases chainFrom_cons h with ⟨t, here, -, -, hhere, rfl⟩ | ⟨v, here, further, -, -, hhere, -, rfl⟩
  · exact hhop hhere
  · exact List.append_ne_nil_of_left_ne_nil (hhop hhere) _

/-- The end of a chain as an expression has the value of its node. -/
theorem eval_terminal (hw : Walkable segments steps)
    (h : chain s (.filter n) segments steps none = .ok ch) (κ : Solution) :
    (Expr.ofNode ch.terminal).eval c κ = ch.terminal.value? c κ := by
  have hlen := length_hops_le hw
  rcases terminal_chainFrom_none rfl hw.plain (chain_none h) hlen with ht | ⟨v, ht, -⟩ <;>
    rw [ht] <;> rfl

/-- A chain and tests of the node at its end ask for a value at the path that
passes them. -/
theorem Faithful.ofChain (hw : Walkable segments steps)
    (h : chain s (.filter n) segments steps none = .ok ch) {es : List Element}
    {passes : Term → Prop} (htests : TestsNode c ch.terminal es passes) :
    Faithful c scope ((Role.filter n).Owns 0) (ch.elements ++ es) fun x =>
      ∃ z, Reaches s c.statements steps x z ∧ passes z := by
  have hch := chain_none h
  have hlen := length_hops_le hw
  have hfilters := filtersOf_chainFrom hch hw.not_identity
  -- the end of the chain is the document or a variable that the comparison owns
  have hterminal {κ κ' : Solution} (ha : Agree c ((Role.filter n).Owns 0) κ κ') :
      ch.terminal.value? c κ' = ch.terminal.value? c κ := by
    rcases terminal_chainFrom_none rfl hw.plain hch hlen with ht | ⟨v, ht, hv⟩
    · rw [ht]
      exact ha.root
    · rw [ht]
      exact ha.owned v hv
  refine ⟨fun {μ κ x} hμ hκ v hv => ?_, fun {μ κ κ' x} hμ _ hκ ha hf => ?_,
    fun {μ x} hμ _ ⟨z, hz, hp⟩ => ?_⟩
  · obtain ⟨ν, hν, hκ⟩ := mem_extendAll_append.mp hκ
    obtain ⟨hframe, z, -, hzν⟩ :=
      sound_chainFrom rfl hw.plain hch hw.not_identity hlen hμ.root hμ.free hν
    rw [htests.frame hzν hκ]
    exact hframe v hv
  · obtain ⟨ν, hν, hκ⟩ := mem_extendAll_append.mp hκ
    obtain ⟨-, z, hz, hzν⟩ :=
      sound_chainFrom rfl hw.plain hch hw.not_identity hlen hμ.root hμ.free hν
    rw [filtersOf_append, hfilters, List.nil_append] at hf
    have hzκ' : ch.terminal.value? c κ' = some z := by
      rw [hterminal ha, htests.frame hzν hκ, hzν]
    exact ⟨z, reaches_withoutIdentity.mp hz, htests.sound hzν hκ hzκ' hf⟩
  · obtain ⟨κ, hκ, hzκ⟩ := complete_chainFrom rfl hw.plain hch hw.not_identity hlen hμ.root hμ.free
      (reaches_withoutIdentity.mpr hz) nofun
    obtain ⟨hmem, hall⟩ := htests.complete hzκ hp
    refine ⟨κ, mem_extendAll_append.mpr ⟨κ, hκ, hmem⟩, fun κ' ha => ?_⟩
    rw [filtersOf_append, hfilters, List.nil_append]
    exact hall κ' ((hterminal ha).trans hzκ)

/-- The test that the document is a term. -/
theorem Faithful.ofIsRoot {owned : Variable → Prop} (i : Rdf.Iri) :
    Faithful c scope owned [isRoot (.iri i)] fun x => x = .iri i := by
  refine Faithful.filter fun {μ x} hμ _ => ?_
  have hroot : (Expr.var rootVariable).eval c μ = some x := hμ.root
  rw [Expr.holds_relation hroot (Expr.eval_ofTerm (t := .iri i) nofun)]
  cases x <;> simp [Store.related]

/-- A chain that ends in a constant asks that the path reaches it. -/
theorem Faithful.ofConstantChain (hw : Walkable segments steps) {t : Term}
    (h : chain s (.filter n) segments steps (some t) = .ok ch)
    (hiri : withoutIdentity steps = [] → ∃ i, t = .iri i) :
    Faithful c scope ((Role.filter n).Owns 0) ch.elements fun x =>
      Reaches s c.statements steps x t := by
  rcases chain_cases h with ⟨t, ht, hhops, rfl⟩ | ⟨hhops, hch⟩
  · obtain rfl := Option.some.inj ht
    obtain ⟨i, rfl⟩ := hiri hhops
    refine (Faithful.ofIsRoot i).congr fun x _ => ?_
    rw [← reaches_withoutIdentity, hhops]
    exact Iff.rfl
  · have hlen := length_hops_le hw
    have hfilters := filtersOf_chainFrom hch hw.not_identity
    have hterm := terminal_chainFrom hch (hhops.resolve_left nofun)
    refine ⟨fun {μ κ x} hμ hκ v hv => ?_, fun {μ κ κ' x} hμ _ hκ _ _ => ?_,
      fun {μ x} hμ _ hx => ?_⟩
    · exact (sound_chainFrom rfl hw.plain hch hw.not_identity hlen hμ.root hμ.free hκ).1 v hv
    · obtain ⟨-, z, hz, hzκ⟩ :=
        sound_chainFrom rfl hw.plain hch hw.not_identity hlen hμ.root hμ.free hκ
      rw [hterm] at hzκ
      obtain rfl : t = z := Option.some.inj hzκ
      exact reaches_withoutIdentity.mp hz
    · obtain ⟨κ, hκ, -⟩ := complete_chainFrom rfl hw.plain hch hw.not_identity hlen hμ.root hμ.free
        (reaches_withoutIdentity.mpr hx) fun t' ht' => Option.some.inj ht'
      refine ⟨κ, hκ, fun κ' _ => ?_⟩
      rw [hfilters]
      exact nofun

/-- The front of a path whose last hop is taken apart. -/
theorem Walkable.front (hw : Walkable segments steps) {front : List PathStep} {last : PathStep}
    (h : withoutIdentity steps = front ++ [last]) :
    Walkable segments front ∧ withoutIdentity front = front ∧ last.target ≠ .identity := by
  have hid := hw.not_identity
  rw [h, List.forall_mem_append, List.forall_mem_singleton] at hid
  have hself := withoutIdentity_eq_self hid.1
  refine ⟨⟨hw.plain, hself.symm ▸ hid.1, ?_⟩, hself, hid.2⟩
  have hle := length_withoutIdentity_le steps
  rw [h, List.length_append] at hle
  exact (Nat.le_of_add_right_le hle).trans hw.length_le

/-- The chains of `$all` ask for one entity that has every value. -/
theorem Faithful.ofAllOf {f : FilterScope} (hw : Walkable segments steps) {values : List Term}
    {es : List Element} (h : f.allOf (.filter n) segments steps values = .ok es)
    (hiri : withoutIdentity steps = [] → ∀ v ∈ values, ∃ i, v = .iri i) :
    Faithful c scope ((Role.filter n).Owns 0) es fun x =>
      ReachesAll f.schema c.statements steps x values := by
  unfold ReachesAll
  rcases FilterScope.allOf_cases h with ⟨hhops, rfl⟩ |
    ⟨front, last, parent, ends, hfront, hparent, hends, rfl⟩
  · rw [hhops]
    have hvalues := hiri hhops
    clear hiri h
    induction values with
    | nil => exact Faithful.nil.congr fun x _ => by simp
    | cons v values ih =>
      rw [List.forall_mem_cons] at hvalues
      obtain ⟨⟨i, rfl⟩, hvalues⟩ := hvalues
      have hone : Faithful c scope (fun _ => False) [isRoot (.iri i)] fun x => x = .iri i :=
        Faithful.ofIsRoot i
      have happend := hone.append (ih hvalues) fun _ => nofun
      exact (happend.mono fun v => Or.rec nofun id).congr fun x _ => by
        rw [List.getLast?_nil, List.forall_mem_cons]
  · rw [hfront, List.getLast?_concat, List.dropLast_concat]
    obtain ⟨hw', -, hid⟩ := hw.front hfront
    exact Faithful.ofChain hw' hparent (TestsNode.hops hid hends)

end DocGraph
