import DocGraph.Proofs.Compile.Walks
import DocGraph.Proofs.Select.Variables

/-!
# How often chains match

A triple whose predicate is an IRI matches a statement in one way, so no solution of a hop
comes twice (`nodup_extendAll_hop`). The solutions of a chain are then the walks along its
steps (`map_terminal_chainFrom`): one for each walk, and with a constant one for each walk
to it.
-/

namespace DocGraph

open Rdf (Iri Statement Term Variable)
open Sparql (Context Node Solution Triple)
open Sparql.Solutions (extensions)

variable {s : Schema} {c : Context} {μ ν κ : Solution} {step : PathStep} {subject : Node}
  {x y z : Term} {es : List Element}

/-! ## Triples -/

namespace Sparql

/-- A node stands for the term that it has matched. -/
theorem Node.value?_of_match? {n : Node} {t : Term} (h : n.match? c μ t = some κ) :
    n.value? c κ = some t := by
  cases n with
  | term u =>
    rw [match?] at h
    split at h
    · next hu => rw [value?, hu]
    · cases h
  | var v =>
    rw [match?] at h
    cases hv : c.value? μ v with
    | some u =>
      rw [hv] at h
      dsimp only at h
      split at h
      · next hu =>
        rw [← Option.some.inj h, ← hu]
        exact hv
      · cases h
    | none =>
      rw [hv] at h
      rw [← Option.some.inj h]
      exact Context.value?_set_self hv t

/-- What a node stands for stays, whatever is matched next. -/
theorem Node.value?_match? {m n : Node} {t : Term} (hm : m.value? c μ = some x)
    (h : n.match? c μ t = some κ) : m.value? c κ = some x := by
  cases n with
  | term u =>
    rw [match?] at h
    split at h
    · rwa [← Option.some.inj h]
    · cases h
  | var v =>
    rw [match?] at h
    cases hv : c.value? μ v with
    | some u =>
      rw [hv] at h
      dsimp only at h
      split at h
      · rwa [← Option.some.inj h]
      · cases h
    | none =>
      rw [hv] at h
      rw [← Option.some.inj h]
      exact Node.value?_set hm hv t

/-- A solution of a triple tells the statement that it matches. -/
theorem Triple.values_of_match? {a b : Node} {p : Iri} {st : Statement}
    (h : Triple.match? c μ ⟨a, .iri p, b⟩ st = some κ) :
    a.value? c κ = some st.subject ∧ p = st.predicate ∧ b.value? c κ = some st.object := by
  obtain ⟨ν, ν', hsubject, hpredicate, hobject⟩ := match?_eq_some h
  have hp : p = st.predicate ∧ ν = ν' := by
    dsimp only at hpredicate
    rw [Predicate.match?] at hpredicate
    split at hpredicate
    · next hp => exact ⟨hp, Option.some.inj hpredicate⟩
    · cases hpredicate
  obtain ⟨hp, rfl⟩ := hp
  exact ⟨Node.value?_match? (Node.value?_of_match? hsubject) hobject, hp,
    Node.value?_of_match? hobject⟩

theorem nodup_extensions_solutions {a b : Node} {p : Iri} :
    (extensions μ (Triple.solutions c ⟨a, .iri p, b⟩)).Nodup := by
  rw [extensions_solutions]
  refine Multiset.Nodup.filterMap _ (fun st st' κ h h' => ?_) c.statements.nodup
  obtain ⟨hs, hp, ho⟩ := Triple.values_of_match? h
  obtain ⟨hs', hp', ho'⟩ := Triple.values_of_match? h'
  obtain ⟨subject, predicate, object⟩ := st
  obtain ⟨subject', predicate', object'⟩ := st'
  rw [Statement.mk.injEq]
  exact ⟨Option.some.inj (hs.symm.trans hs'), hp.symm.trans hp',
    Option.some.inj (ho.symm.trans ho')⟩

end Sparql

/-! ## Hops -/

theorem extendAll_statement {a b : Node} {p : Iri} : extendAll c [.statement a p b] {μ} =
    extensions μ (Triple.solutions c ⟨a, .iri p, b⟩) := by
  rw [extendAll, extendAll, Element.statement, Element.extend, Sparql.Solutions.singleton_join]

theorem extendAll_inverse {a b : Node} {p : Iri} : extendAll c [.inverse a p b] {μ} =
    extensions μ (Triple.solutions c ⟨b, .iri p, a⟩) := by
  rw [extendAll, extendAll, Element.extend, Sparql.Solutions.singleton_join]

/-- A hop has no solution twice. -/
theorem nodup_extendAll_hop {object : Node} (h : hop s subject step object = .ok es)
    (hid : step.target ≠ .identity) : (extendAll c es {μ}).Nodup := by
  rcases hop_cases h hid with ⟨p, rfl, -⟩ | ⟨p, classUri, rfl, -⟩
  · rw [extendAll_statement]
    exact Sparql.nodup_extensions_solutions
  · rw [← List.singleton_append, extendAll_append, extendAll_eq_bind, extendAll_inverse]
    have hknown {ν κ : Solution}
        (hν : ν ∈ extensions μ (Triple.solutions c ⟨object, .iri p, subject⟩))
        (hκ : κ ∈ extendAll c [.statement object Rdf.rdfType (.term (.iri classUri))] {ν}) :
        κ = ν := by
      obtain ⟨st, -, hst⟩ := Sparql.mem_extensions_solutions.mp hν
      rw [extendAll_statement] at hκ
      exact ((Sparql.mem_extensions_known (Triple.values_of_match? hst).1 rfl).mp hκ).2
    refine Multiset.nodup_bind.mpr ⟨fun ν _ => ?_, ?_⟩
    · rw [extendAll_statement]
      exact Sparql.nodup_extensions_solutions
    · refine Multiset.Nodup.pairwise (fun ν hν ν' hν' hne => ?_) Sparql.nodup_extensions_solutions
      refine Multiset.disjoint_left.mpr fun {κ} hκ hκ' => hne ?_
      rw [← hknown hν hκ, hknown hν' hκ']

open scoped Classical in
/-- A hop between known nodes matches once if its step leads from one to the other. -/
theorem extendAll_hop_known {object : Node} (h : hop s subject step object = .ok es)
    (hid : step.target ≠ .identity) (hx : subject.value? c μ = some x)
    (hy : object.value? c μ = some y) :
    extendAll c es {μ} = if step.Leads s c.statements x y then {μ} else 0 := by
  have hmem {κ : Solution} := mem_extendAll_hop_known (κ := κ) h hid hx hy
  split
  · next hleads =>
    refine (Multiset.Nodup.ext (nodup_extendAll_hop h hid) (Multiset.nodup_singleton μ)).mpr
      fun κ => ?_
    rw [hmem, Multiset.mem_singleton, and_iff_right hleads]
  · next hleads => exact Multiset.eq_zero_of_forall_notMem fun κ hκ => hleads (hmem.mp hκ).1

/-- A hop to a free variable matches once for each term that its step leads to. -/
theorem extendAll_hop_free {v : Variable} (h : hop s subject step (.var v) = .ok es)
    (hid : step.target ≠ .identity) (hx : subject.value? c μ = some x)
    (hv : c.value? μ v = none) :
    extendAll c es {μ} = (step.targets s c.statements x).val.map (μ.set v) := by
  have hinjective : Function.Injective (μ.set v) := fun y y' he => by
    have := congrFun he v
    rwa [Solution.set_self, Solution.set_self, Option.some.injEq] at this
  refine (Multiset.Nodup.ext (nodup_extendAll_hop h hid)
    ((step.targets s c.statements x).nodup.map hinjective)).mpr fun κ => ?_
  rw [mem_extendAll_hop_free h hid hx hv, Multiset.mem_map]
  simp only [Finset.mem_val, PathStep.mem_targets, eq_comm]

/-! ## Chains -/

open scoped Classical in
/-- The ends of the solutions of a chain are those of the walks along its steps. With a
constant they are the walks to it. -/
theorem map_terminal_chainFrom {role : Role} {tag : String} (htag : role.tag? = some tag)
    {segments : List String} (hplain : Plain segments) {constant : Option Term} {taken : Nat}
    {steps : List PathStep} {ch : Chain}
    (h : chainFrom s role segments constant subject taken steps = .ok ch)
    (hid : ∀ step ∈ steps, step.target ≠ .identity)
    (hlen : taken + steps.length ≤ segments.length) (hconst : constant = none ∨ steps ≠ [])
    (hx : subject.value? c μ = some x)
    (hfree : ∀ v, role.Owns taken v → c.value? μ v = none) :
    (extendAll c ch.elements {μ}).map (ch.terminal.value? c ·) =
      ((walks s c.statements steps x).filter fun z => ∀ t, constant = some t → z = t).map some := by
  induction steps generalizing subject taken ch μ x with
  | nil =>
    obtain rfl := Except.ok.inj h
    obtain rfl := hconst.resolve_right (not_not_intro rfl)
    have hnone (z t : Term) (ht : none = some t) : z = t := absurd ht.symm (Option.some_ne_none t)
    rw [walks, Multiset.filter_eq_self.mpr fun z _ => hnone z, Multiset.map_singleton, ← hx]
    exact Multiset.map_singleton _ _
  | cons step rest ih =>
    rw [List.forall_mem_cons] at hid
    rw [List.length_cons] at hlen
    rcases chainFrom_cons h with ⟨t, here, rfl, rfl, hhere, rfl⟩ |
      ⟨v, here, further, hrest, hv, hhere, hfurther, rfl⟩
    · -- the last hop of a chain with a constant is a test
      have hfilter : (walks s c.statements [step] x).filter (fun z =>
          ∀ t', some t = some t' → z = t') =
            if step.Leads s c.statements x t then {t} else 0 := by
        simp only [Option.some.injEq, forall_eq']
        rw [Multiset.filter_eq', walks_singleton,
          Multiset.count_eq_of_nodup (step.targets s c.statements x).nodup]
        simp only [Finset.mem_val, PathStep.mem_targets]
        split <;> rfl
      rw [extendAll_hop_known hhere hid.1 hx rfl, hfilter]
      split <;> rfl
    · obtain ⟨hown, hnot⟩ := owns_variableAt htag hplain (n := taken) (by omega) hv
      rw [walks, Multiset.filter_bind, extendAll_append, extendAll_eq_bind,
        extendAll_hop_free hhere hid.1 hx (hfree v hown), Multiset.bind_map, Multiset.map_bind,
        Multiset.map_bind]
      refine Multiset.bind_congr fun y _ => ?_
      exact ih hfurther hid.2 (by omega) hrest (Context.value?_set_self (hfree v hown) y)
        (free_set hnot hfree y)

end DocGraph
