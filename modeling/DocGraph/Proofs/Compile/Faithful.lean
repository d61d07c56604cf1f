import DocGraph.Proofs.Compile.Hops
import DocGraph.Proofs.Sparql.Tests

/-!
# Elements that ask about the document

The elements of a filter are faithful to a meaning if they have a solution for
just the documents that have it, whatever else the group binds
(`Faithful`). For this they own some variables, which nothing else in the group
uses: their solutions bind no others, and their tests look at no others but the
document. Faithful elements that own different variables can be put side by side
(`Faithful.append`), into the branches of a union (`Faithful.union`), and behind
the question whether a match exists (`Faithful.existence`).
-/

namespace DocGraph

open Rdf (Term Variable)
open Sparql (Context Expr Node Solution Solutions)

/-- Whether a solution has a document and binds none of some variables. -/
structure AtDocument (c : Context) (owned : Variable → Prop) (μ : Solution) (x : Term) : Prop where
  root : c.value? μ rootVariable = some x
  free : ∀ v, owned v → c.value? μ v = none

/-- Whether two solutions agree about the document and some variables. -/
structure Agree (c : Context) (owned : Variable → Prop) (κ κ' : Solution) : Prop where
  root : c.value? κ' rootVariable = c.value? κ rootVariable
  owned : ∀ v, owned v → c.value? κ' v = c.value? κ v

/-- Whether elements have a solution for just the documents with a meaning, among
those in a scope. -/
structure Faithful (c : Context) (scope : Term → Prop) (owned : Variable → Prop)
    (es : List Element) (meaning : Term → Prop) : Prop where
  frame : ∀ {μ κ x}, AtDocument c owned μ x → κ ∈ extendAll c es {μ} → ∀ v, ¬owned v → κ v = μ v
  sound : ∀ {μ κ κ' x}, AtDocument c owned μ x → scope x → κ ∈ extendAll c es {μ} →
    Agree c owned κ κ' → (∀ e ∈ filtersOf es, e.Holds c κ') → meaning x
  complete : ∀ {μ x}, AtDocument c owned μ x → scope x → meaning x →
    ∃ κ ∈ extendAll c es {μ}, ∀ κ', Agree c owned κ κ' → ∀ e ∈ filtersOf es, e.Holds c κ'

variable {c : Context} {scope : Term → Prop} {owned owned' : Variable → Prop} {es fs : List Element}
  {meaning meaning' : Term → Prop} {μ κ κ' : Solution} {x : Term}

theorem AtDocument.not_owned_root (h : AtDocument c owned μ x) : ¬owned rootVariable := fun ho => by
  have := h.free rootVariable ho
  rw [h.root] at this
  cases this

theorem Agree.refl (c : Context) (owned : Variable → Prop) (κ : Solution) : Agree c owned κ κ :=
  ⟨rfl, fun _ _ => rfl⟩

theorem Agree.mono (h : Agree c owned κ κ') (ho : ∀ v, owned' v → owned v) : Agree c owned' κ κ' :=
  ⟨h.root, fun v hv => h.owned v (ho v hv)⟩

theorem AtDocument.mono (h : AtDocument c owned μ x) (ho : ∀ v, owned' v → owned v) :
    AtDocument c owned' μ x :=
  ⟨h.root, fun v hv => h.free v (ho v hv)⟩

/-- A solution that agrees about the document and the free variables has them
too. -/
theorem AtDocument.of_agree (h : AtDocument c owned μ x) (ha : Agree c owned μ κ) :
    AtDocument c owned κ x :=
  ⟨ha.root.trans h.root, fun v hv => (ha.owned v hv).trans (h.free v hv)⟩

theorem Sparql.Context.value?_congr {v : Variable} (h : κ v = μ v) :
    c.value? κ v = c.value? μ v := by
  rw [value?, value?, h]

theorem Agree.trans {ν : Solution} (h : Agree c owned μ ν) (h' : Agree c owned ν κ) :
    Agree c owned μ κ :=
  ⟨h'.root.trans h.root, fun v hv => (h'.owned v hv).trans (h.owned v hv)⟩

namespace Faithful

theorem congr (h : Faithful c scope owned es meaning)
    (hm : ∀ x, scope x → (meaning x ↔ meaning' x)) : Faithful c scope owned es meaning' where
  frame := h.frame
  sound hμ hx hκ ha hf := (hm _ hx).mp (h.sound hμ hx hκ ha hf)
  complete hμ hx hmx := h.complete hμ hx ((hm _ hx).mpr hmx)

theorem mono (h : Faithful c scope owned es meaning) (ho : ∀ v, owned v → owned' v) :
    Faithful c scope owned' es meaning where
  frame hμ hκ v hv := h.frame (hμ.mono ho) hκ v fun hv' => hv (ho v hv')
  sound hμ hx hκ ha hf := h.sound (hμ.mono ho) hx hκ (ha.mono ho) hf
  complete hμ hx hmx := by
    obtain ⟨κ, hκ, hall⟩ := h.complete (hμ.mono ho) hx hmx
    exact ⟨κ, hκ, fun κ' ha => hall κ' (ha.mono ho)⟩

theorem nil : Faithful c scope owned [] fun _ => True where
  frame _ hκ v _ := by rw [mem_extendAll_nil.mp hκ]
  sound _ _ _ _ _ := trivial
  complete {μ _} _ _ _ := ⟨μ, mem_extendAll_nil.mpr rfl, fun _ _ => nofun⟩

/-- What faithful elements bind leaves the document and the variables of others as they are. -/
theorem agree (h : Faithful c scope owned es meaning) (hdisjoint : ∀ v, owned v → ¬owned' v)
    (hμ : AtDocument c owned μ x) (hκ : κ ∈ extendAll c es {μ}) : Agree c owned' μ κ :=
  ⟨Context.value?_congr (h.frame hμ hκ _ hμ.not_owned_root), fun v hv =>
    Context.value?_congr (h.frame hμ hκ v fun ho => hdisjoint v ho hv)⟩

/-- After faithful elements the document is the same, and the variables of others are free. -/
theorem atDocument (h : Faithful c scope owned es meaning) (hdisjoint : ∀ v, owned v → ¬owned' v)
    (hμ : AtDocument c (fun v => owned v ∨ owned' v) μ x) (hκ : κ ∈ extendAll c es {μ}) :
    AtDocument c owned' κ x :=
  (hμ.mono fun _ => .inr).of_agree (h.agree hdisjoint (hμ.mono fun _ => .inl) hκ)

/-- Elements that own different variables ask for both of their meanings. -/
theorem append (h : Faithful c scope owned es meaning) (h' : Faithful c scope owned' fs meaning')
    (hdisjoint : ∀ v, owned v → ¬owned' v) :
    Faithful c scope (fun v => owned v ∨ owned' v) (es ++ fs) fun x => meaning x ∧ meaning' x := by
  -- what `fs` binds is nothing that `es` looks at
  have hback {ν κ κ' : Solution} {x : Term} (hν : AtDocument c owned' ν x)
      (hκ : κ ∈ extendAll c fs {ν}) (ha : Agree c (fun v => owned v ∨ owned' v) κ κ') :
      Agree c owned ν κ' :=
    (h'.agree (fun v hv ho => hdisjoint v ho hv) hν hκ).trans (ha.mono fun v => .inl)
  refine ⟨fun {μ κ x} hμ hκ v hv => ?_, fun {μ κ κ' x} hμ hx hκ ha hf => ?_,
    fun {μ x} hμ hx hmx => ?_⟩
  · obtain ⟨ν, hν, hκ⟩ := mem_extendAll_append.mp hκ
    rw [h'.frame (h.atDocument hdisjoint hμ hν) hκ v fun ho => hv (.inr ho),
      h.frame (hμ.mono fun v => .inl) hν v fun ho => hv (.inl ho)]
  · obtain ⟨ν, hν, hκ⟩ := mem_extendAll_append.mp hκ
    rw [filtersOf_append, List.forall_mem_append] at hf
    exact ⟨h.sound (hμ.mono fun v => .inl) hx hν (hback (h.atDocument hdisjoint hμ hν) hκ ha) hf.1,
      h'.sound (h.atDocument hdisjoint hμ hν) hx hκ (ha.mono fun v => .inr) hf.2⟩
  · obtain ⟨ν, hν, hall⟩ := h.complete (hμ.mono fun v => .inl) hx hmx.1
    obtain ⟨κ, hκ, hall'⟩ := h'.complete (h.atDocument hdisjoint hμ hν) hx hmx.2
    refine ⟨κ, mem_extendAll_append.mpr ⟨ν, hν, hκ⟩, fun κ' ha => ?_⟩
    rw [filtersOf_append, List.forall_mem_append]
    exact ⟨hall κ' (hback (h.atDocument hdisjoint hμ hν) hκ ha), hall' κ' (ha.mono fun v => .inr)⟩

/-- A filter that looks at nothing but the document. -/
theorem filter {e : Expr} (h : ∀ {μ x}, AtDocument c owned μ x → scope x →
    (e.Holds c μ ↔ meaning x)) : Faithful c scope owned [.filter e] meaning := by
  refine ⟨fun {μ κ x} _ hκ v _ => ?_, fun {μ κ κ' x} hμ hx hκ ha hf => ?_,
    fun {μ x} hμ hx hmx => ⟨μ, ?_, fun κ' ha => ?_⟩⟩
  · rw [extendAll, Element.extend] at hκ
    rw [mem_extendAll_nil.mp hκ]
  · rw [extendAll, Element.extend] at hκ
    obtain rfl := mem_extendAll_nil.mp hκ
    exact (h (hμ.of_agree ha) hx).mp (hf e List.mem_cons_self)
  · rw [extendAll, Element.extend]
    exact mem_extendAll_nil.mpr rfl
  · simp only [filtersOf, List.filterMap_cons, Element.filter?, List.filterMap_nil,
      List.mem_singleton, forall_eq]
    exact (h (hμ.of_agree ha) hx).mpr hmx

/-- The pattern of faithful elements matches for just the documents with their
meaning. -/
theorem eval_groupPattern_ne_zero (h : Faithful c scope owned es meaning)
    (hμ : AtDocument c owned .empty x) (hx : scope x) :
    (groupPattern es).eval c ≠ 0 ↔ meaning x := by
  rw [eval_groupPattern]
  constructor
  · intro hne
    obtain ⟨κ, hκ⟩ := Multiset.exists_mem_of_ne_zero hne
    obtain ⟨hκ, hf⟩ := mem_groupSolutions.mp hκ
    exact h.sound hμ hx hκ (Agree.refl c owned κ) hf
  · intro hm
    obtain ⟨κ, hκ, hall⟩ := h.complete hμ hx hm
    have hmem := mem_groupSolutions.mpr ⟨hκ, hall κ (Agree.refl c owned κ)⟩
    exact fun he => Multiset.notMem_zero κ (he ▸ hmem)

/-- A filter that asks whether a match of faithful elements exists, or that none
does. The document is substituted in them. -/
theorem existence (negated : Bool)
    (h : ∀ μ, Faithful (c.substituted μ) scope owned es meaning) :
    Faithful c scope owned (FilterScope.existence negated es) fun x =>
      if negated then ¬meaning x else meaning x := by
  have hat {μ : Solution} {x : Term} (hμ : AtDocument c owned μ x) :
      AtDocument (c.substituted μ) owned .empty x := by
    have hvalue (v : Variable) : (c.substituted μ).value? .empty v = c.value? μ v := by
      simp [Context.value?, Context.substituted, Solution.merge]
    exact ⟨(hvalue _).trans hμ.root, fun v hv => (hvalue v).trans (hμ.free v hv)⟩
  cases negated with
  | false =>
    refine filter fun {μ x} hμ hx => ?_
    simp only [Bool.false_eq_true, if_false]
    rw [Expr.holds_hasMatch, (h μ).eval_groupPattern_ne_zero (hat hμ) hx]
  | true =>
    refine filter fun {μ x} hμ hx => ?_
    simp only [if_true]
    rw [Expr.holds_not_hasMatch, ← (h μ).eval_groupPattern_ne_zero (hat hμ) hx, not_ne_iff]

end Faithful

/-! ## Anchored groups -/

section Anchored

variable {classUri : Rdf.Iri} (hc : c.given = .empty) (hroot : ¬owned rootVariable)

/-- The instances of a class. -/
def IsInstanceOf (c : Context) (classUri : Rdf.Iri) (x : Term) : Prop :=
  ⟨x, Rdf.rdfType, .iri classUri⟩ ∈ c.statements

/-- Elements behind the triple for the class of the document. -/
def anchored (classUri : Rdf.Iri) (es : List Element) : List Element :=
  .statement rootNode Rdf.rdfType (.term (.iri classUri)) :: es

include hc

theorem mem_extend_anchor : κ ∈ (Element.statement rootNode Rdf.rdfType
    (.term (.iri classUri))).extend c {.empty} ↔
      ∃ y, IsInstanceOf c classUri y ∧ κ = Solution.empty.set rootVariable y := by
  rw [Element.statement, mem_extend_triple]
  exact Sparql.mem_extensions_subject rfl (by simp [Context.value?, hc])

include hroot

theorem atDocument_anchor (y : Term) :
    AtDocument c owned (Solution.empty.set rootVariable y) y := by
  have hunbound (v : Variable) : c.value? .empty v = none := by simp [Context.value?, hc]
  refine ⟨Context.value?_set_self (hunbound _) y, fun v hv => ?_⟩
  rw [c.value?_set_of_ne _ (v := rootVariable) fun he => hroot (he ▸ hv), hunbound]

/-- A solution of an anchored group has a document with the meaning, and binds
nothing but it and what the elements own. -/
theorem Faithful.sound_anchored (h : Faithful c (IsInstanceOf c classUri) owned es meaning)
    (hκ : κ ∈ groupSolutions c (anchored classUri es)) :
    ∃ x, κ rootVariable = some x ∧ IsInstanceOf c classUri x ∧ meaning x ∧
      ∀ v, ¬owned v → v ≠ rootVariable → κ v = none := by
  simp only [mem_groupSolutions, anchored, mem_extendAll_cons, mem_extend_anchor hc] at hκ
  obtain ⟨⟨_, ⟨y, hy, rfl⟩, hκ⟩, hf⟩ := hκ
  have hat := atDocument_anchor hc hroot y
  refine ⟨y, ?_, hy, h.sound hat hy hκ (Agree.refl c owned κ) hf, fun v hv hne => ?_⟩
  · rw [h.frame hat hκ _ hroot, Solution.set_self]
  · rw [h.frame hat hκ v hv, Solution.set_of_ne _ hne, Solution.empty_apply]

/-- An anchored group has a solution for every document with the meaning. -/
theorem Faithful.complete_anchored (h : Faithful c (IsInstanceOf c classUri) owned es meaning)
    (hx : IsInstanceOf c classUri x) (hm : meaning x) :
    ∃ κ ∈ groupSolutions c (anchored classUri es), κ rootVariable = some x := by
  have hat := atDocument_anchor hc hroot x
  obtain ⟨κ, hκ, hall⟩ := h.complete hat hx hm
  refine ⟨κ, ?_, by rw [h.frame hat hκ _ hroot, Solution.set_self]⟩
  simp only [mem_groupSolutions, anchored, mem_extendAll_cons, mem_extend_anchor hc]
  exact ⟨⟨_, ⟨x, hx, rfl⟩, hκ⟩, hall κ (Agree.refl c owned κ)⟩

/-- A union of anchored branches asks that one of them has its meaning. The
branches may own the same variables, since they are never put side by side. -/
theorem Faithful.union {branches : List (List Element)} {meanings : List (Term → Prop)}
    (h : List.Forall₂ (Faithful c (IsInstanceOf c classUri) owned) branches meanings) :
    Faithful c (IsInstanceOf c classUri) owned [.union (branches.map (anchored classUri))]
      fun x => ∃ meaning ∈ meanings, meaning x := by
  have hvalue (μ : Solution) (v : Variable) : c.value? μ v = μ v := by simp [Context.value?, hc]
  have hextend {μ κ : Solution} :
      κ ∈ extendAll c [.union (branches.map (anchored classUri))] {μ} ↔
        ∃ es ∈ branches, ∃ ν ∈ groupSolutions c (anchored classUri es),
          μ.Compatible ν ∧ κ = μ.merge ν := by
    rw [mem_extendAll_cons]
    simp only [mem_extendAll_nil, exists_eq_right', Element.extend, Solutions.mem_join,
      Multiset.mem_singleton, exists_eq_left, mem_branchSolutions, List.mem_map]
    constructor
    · rintro ⟨ν, ⟨_, ⟨es, hes, rfl⟩, hν⟩, hκ⟩
      exact ⟨es, hes, ν, hν, hκ⟩
    · rintro ⟨es, hes, ν, hν, hκ⟩
      exact ⟨ν, ⟨_, ⟨es, hes, rfl⟩, hν⟩, hκ⟩
  refine ⟨fun {μ κ x} hμ hκ v hv => ?_, fun {μ κ κ' x} hμ _ hκ _ _ => ?_,
    fun {μ x} hμ hx hmx => ?_⟩
  · obtain ⟨es, hes, ν, hν, hcompat, rfl⟩ := hextend.mp hκ
    obtain ⟨meaning, -, hbranch⟩ := exists_right_of_mem h hes
    obtain ⟨y, hy, -, -, hframe⟩ := hbranch.sound_anchored hc hroot hν
    by_cases hne : v = rootVariable
    · rw [hne, Solution.merge, ← hvalue μ, hμ.root, Option.some_or]
    · rw [Solution.merge, hframe v hv hne, Option.or_none]
  · obtain ⟨es, hes, ν, hν, hcompat, rfl⟩ := hextend.mp hκ
    obtain ⟨meaning, hmem, hbranch⟩ := exists_right_of_mem h hes
    obtain ⟨y, hy, -, hm, -⟩ := hbranch.sound_anchored hc hroot hν
    have hxy : x = y := hcompat rootVariable x y (by rw [← hvalue μ, hμ.root]) hy
    exact ⟨meaning, hmem, hxy ▸ hm⟩
  · obtain ⟨meaning, hmem, hm⟩ := hmx
    obtain ⟨es, hes, hbranch⟩ := exists_left_of_mem h hmem
    obtain ⟨ν, hν, hνx⟩ := hbranch.complete_anchored hc hroot hx hm
    refine ⟨μ.merge ν, hextend.mpr ⟨es, hes, ν, hν, fun v t u ht hu => ?_, rfl⟩,
      fun _ _ _ he => absurd he List.not_mem_nil⟩
    obtain ⟨y, hy, -, -, hframe⟩ := hbranch.sound_anchored hc hroot hν
    by_cases hne : v = rootVariable
    · subst hne
      rw [← hvalue μ, hμ.root] at ht
      exact Option.some.inj (ht.symm.trans (hνx.symm.trans hu))
    · by_cases hv : owned v
      · rw [← hvalue μ, hμ.free v hv] at ht
        cases ht
      · rw [hframe v hv hne] at hu
        cases hu

end Anchored

end DocGraph
