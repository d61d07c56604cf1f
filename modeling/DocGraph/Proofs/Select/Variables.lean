import DocGraph.Proofs.Select.Extend

/-!
# What elements bind

A solution keeps its other variables when elements extend it (`apply_of_mem_extendAll`),
and what it binds stays bound (`isBound_of_mem_extendAll`), to another term only if an
element binds the same variable again. A triple binds all of its variables
(`isBound_of_mem_extensions`).
-/

namespace DocGraph

open Rdf (Iri Statement Term Variable)
open Sparql (Context Expr Node Predicate Solution Solutions Triple)
open Sparql.Solutions (extensions join leftJoin)

/-! ## Triples -/

namespace Sparql

/-- The variable that a node is. -/
def Node.variables : Node → List Variable
  | .term _ => []
  | .var v => [v]

/-- The variable that a predicate is. -/
def Predicate.variables : Predicate → List Variable
  | .iri _ => []
  | .var v => [v]

/-- The variables of a triple. -/
def Triple.variables (t : Triple) : List Variable :=
  t.subject.variables ++ (t.predicate.variables ++ t.object.variables)

/-- Whether a solution has a term for a variable. -/
def Solution.IsBound (μ : Solution) (v : Variable) : Prop :=
  ∃ t, μ v = some t

variable {c : Context} {μ ν κ : Solution} {v : Variable}

theorem Solution.isBound_merge (h : μ.IsBound v) : (μ.merge ν).IsBound v := by
  obtain ⟨t, ht⟩ := h
  exact ⟨t, by rw [merge, ht, Option.some_or]⟩

theorem Solution.isBound_set {w : Variable} {t : Term} (h : μ.IsBound v) :
    (μ.set w t).IsBound v := by
  by_cases hv : v = w
  · subst hv
    exact ⟨t, set_self μ v t⟩
  · rwa [IsBound, set_of_ne μ hv]

theorem Node.apply_of_match? {n : Node} {t : Term} (h : n.match? c μ t = some κ)
    (hv : v ∉ n.variables) : κ v = μ v := by
  cases n with
  | term u =>
    rw [match?] at h
    split at h
    · rw [Option.some.inj h]
    · cases h
  | var w =>
    rw [match?] at h
    split at h
    · split at h
      · rw [Option.some.inj h]
      · cases h
    · rw [← Option.some.inj h, Solution.set_of_ne μ fun he => hv (List.mem_singleton.mpr he)]

theorem Node.isBound_of_match? {n : Node} {t : Term} (h : n.match? c μ t = some κ)
    (hμ : μ.IsBound v) : κ.IsBound v := by
  cases n with
  | term u =>
    rw [match?] at h
    split at h
    · rwa [← Option.some.inj h]
    · cases h
  | var w =>
    rw [match?] at h
    split at h
    · split at h
      · rwa [← Option.some.inj h]
      · cases h
    · rw [← Option.some.inj h]
      exact Solution.isBound_set hμ

theorem Node.isBound_var {t : Term} (hc : c.given = .empty)
    (h : (Node.var v).match? c μ t = some κ) : κ.IsBound v := by
  rw [match?, Context.value?_eq hc] at h
  split at h
  · next u hu =>
    split at h
    · exact ⟨u, Option.some.inj h ▸ hu⟩
    · cases h
  · rw [← Option.some.inj h]
    exact ⟨t, Solution.set_self μ v t⟩

theorem Triple.match?_eq_some {t : Triple} {s : Statement} (h : t.match? c μ s = some κ) :
    ∃ ν ν', t.subject.match? c μ s.subject = some ν ∧ t.predicate.match? c ν s.predicate = some ν' ∧
      t.object.match? c ν' s.object = some κ := by
  simp only [match?, Option.bind_eq_bind, Option.bind_eq_some_iff] at h
  obtain ⟨ν, hsubject, ν', hpredicate, hobject⟩ := h
  exact ⟨ν, ν', hsubject, hpredicate, hobject⟩

theorem Predicate.apply_of_match? {p : Predicate} {i : Iri} (h : p.match? c μ i = some κ)
    (hv : v ∉ p.variables) : κ v = μ v := by
  cases p with
  | iri j =>
    rw [match?] at h
    split at h
    · rw [Option.some.inj h]
    · cases h
  | var w => exact Node.apply_of_match? (n := .var w) h hv

theorem Predicate.isBound_of_match? {p : Predicate} {i : Iri} (h : p.match? c μ i = some κ)
    (hμ : μ.IsBound v) : κ.IsBound v := by
  cases p with
  | iri j =>
    rw [match?] at h
    split at h
    · rwa [← Option.some.inj h]
    · cases h
  | var w => exact Node.isBound_of_match? (n := .var w) h hμ

theorem mem_extensions_solutions {t : Triple} :
    κ ∈ extensions μ (t.solutions c) ↔ ∃ s ∈ c.statements, t.match? c μ s = some κ := by
  rw [extensions_solutions]
  exact Multiset.mem_filterMap _ _

/-- A triple leaves other variables as they are. -/
theorem Triple.apply_of_mem_extensions {t : Triple} (h : κ ∈ extensions μ (t.solutions c))
    (hv : v ∉ t.variables) : κ v = μ v := by
  obtain ⟨s, -, hs⟩ := mem_extensions_solutions.mp h
  obtain ⟨ν, ν', hsubject, hpredicate, hobject⟩ := match?_eq_some hs
  rw [Triple.variables, List.mem_append, List.mem_append, not_or, not_or] at hv
  rw [Node.apply_of_match? hobject hv.2.2, Predicate.apply_of_match? hpredicate hv.2.1,
    Node.apply_of_match? hsubject hv.1]

/-- A triple binds its subject and its object. -/
theorem Triple.isBound_of_mem_extensions {a b : Node} {p : Iri} (hc : c.given = .empty)
    (h : κ ∈ extensions μ (Triple.solutions c ⟨a, .iri p, b⟩)) :
    (∀ v, a = .var v → κ.IsBound v) ∧ ∀ v, b = .var v → κ.IsBound v := by
  obtain ⟨s, -, hs⟩ := mem_extensions_solutions.mp h
  obtain ⟨ν, ν', hsubject, hpredicate, hobject⟩ := match?_eq_some hs
  constructor
  · rintro v rfl
    exact Node.isBound_of_match? hobject
      (Predicate.isBound_of_match? hpredicate (Node.isBound_var hc hsubject))
  · rintro v rfl
    exact Node.isBound_var hc hobject

end Sparql

/-! ## Elements -/

mutual

/-- The variables that an element may bind. -/
def Element.variables : Element → List Variable
  | .triple t => t.variables
  | .inverse s _ o => o.variables ++ s.variables
  | .filter _ => []
  | .optional es => elementVariables es
  | .union branches => branchVariables branches
  | .bind v _ => [v]

/-- The variables that elements may bind. -/
def elementVariables : List Element → List Variable
  | [] => []
  | e :: rest => e.variables ++ elementVariables rest

/-- The variables that groups may bind. -/
def branchVariables : List (List Element) → List Variable
  | [] => []
  | es :: rest => elementVariables es ++ branchVariables rest

end

variable {c : Context} {μ κ : Solution} {v : Variable}

theorem elementVariables_append (es fs : List Element) :
    elementVariables (es ++ fs) = elementVariables es ++ elementVariables fs := by
  induction es with
  | nil => rfl
  | cons e es ih =>
    rw [List.cons_append, elementVariables, ih, elementVariables, List.append_assoc]

theorem mem_elementVariables {es : List Element} :
    v ∈ elementVariables es ↔ ∃ e ∈ es, v ∈ e.variables := by
  induction es with
  | nil => simp [elementVariables]
  | cons e es ih => rw [elementVariables, List.mem_append, ih, List.exists_mem_cons_iff]

theorem apply_of_mem_join {B : Solutions} (hB : ∀ ν ∈ B, ν v = none) (h : κ ∈ join {μ} B) :
    κ v = μ v := by
  obtain ⟨μ', hμ', ν, hν, -, rfl⟩ := Solutions.mem_join.mp h
  rw [Multiset.mem_singleton.mp hμ', Solution.merge, hB ν hν, Option.or_none]

theorem apply_of_mem_leftJoin {B : Solutions} (hB : ∀ ν ∈ B, ν v = none)
    (h : κ ∈ leftJoin {μ} B) : κ v = μ v := by
  rcases Solutions.mem_leftJoin.mp h with h | ⟨h, -⟩
  · exact apply_of_mem_join hB h
  · rw [Multiset.mem_singleton.mp h]

mutual

theorem Element.apply_of_mem_extend : ∀ (e : Element) (μ κ : Solution), v ∉ e.variables →
    κ ∈ e.extend c {μ} → κ v = μ v
  | .triple t, μ, κ, hv, h => Sparql.Triple.apply_of_mem_extensions (mem_extend_triple.mp h) hv
  | .inverse s p o, μ, κ, hv, h =>
    Sparql.Triple.apply_of_mem_extensions (t := ⟨o, .iri p, s⟩) (mem_extend_inverse.mp h) hv
  | .filter e, μ, κ, _, h => by
    rw [Element.extend] at h
    rw [Multiset.mem_singleton.mp h]
  | .optional es, μ, κ, hv, h => by
    rw [Element.extend] at h
    refine apply_of_mem_leftJoin (fun ν hν => ?_) h
    rw [apply_of_mem_extendAll es .empty ν hv (mem_passing.mp hν).1, Solution.empty_apply]
  | .union branches, μ, κ, hv, h => by
    rw [Element.extend] at h
    exact apply_of_mem_join (fun ν hν => apply_of_mem_branchSolutions branches ν hv hν) h
  | .bind w e, μ, κ, hv, h => by
    rw [Element.extend, Multiset.map_singleton] at h
    rw [Multiset.mem_singleton.mp h, Solution.extended]
    cases e.eval c μ with
    | none => rfl
    | some t => exact Solution.set_of_ne μ (fun he => hv (List.mem_singleton.mpr he)) t

/-- Elements leave other variables as they are. -/
theorem apply_of_mem_extendAll : ∀ (es : List Element) (μ κ : Solution),
    v ∉ elementVariables es → κ ∈ extendAll c es {μ} → κ v = μ v
  | [], μ, κ, _, h => by rw [mem_extendAll_nil.mp h]
  | e :: es, μ, κ, hv, h => by
    rw [elementVariables, List.mem_append, not_or] at hv
    obtain ⟨ν, hν, h⟩ := mem_extendAll_cons.mp h
    rw [apply_of_mem_extendAll es ν κ hv.2 h, Element.apply_of_mem_extend e μ ν hv.1 hν]

theorem apply_of_mem_branchSolutions : ∀ (branches : List (List Element)) (κ : Solution),
    v ∉ branchVariables branches → κ ∈ branchSolutions c branches → κ v = none
  | [], _, _, h => absurd h (Multiset.notMem_zero _)
  | es :: rest, κ, hv, h => by
    rw [branchVariables, List.mem_append, not_or] at hv
    rw [branchSolutions, Multiset.mem_add] at h
    rcases h with h | h
    · rw [apply_of_mem_extendAll es .empty κ hv.1 (mem_passing.mp h).1, Solution.empty_apply]
    · exact apply_of_mem_branchSolutions rest κ hv.2 h

end

/-- The solutions of a group bind its variables only. -/
theorem apply_of_mem_groupSolutions {es : List Element} (hv : v ∉ elementVariables es)
    (h : κ ∈ groupSolutions c es) : κ v = none := by
  rw [apply_of_mem_extendAll es .empty κ hv (mem_groupSolutions.mp h).1, Solution.empty_apply]

/-! ## Bound variables -/

theorem isBound_of_mem_join {B : Solutions} (hμ : μ.IsBound v) (h : κ ∈ join {μ} B) :
    κ.IsBound v := by
  obtain ⟨μ', hμ', ν, -, -, rfl⟩ := Solutions.mem_join.mp h
  rw [Multiset.mem_singleton.mp hμ']
  exact Solution.isBound_merge hμ

theorem Element.isBound_of_mem_extend {e : Element} (hμ : μ.IsBound v) (h : κ ∈ e.extend c {μ}) :
    κ.IsBound v := by
  cases e with
  | triple t =>
    rw [extend] at h
    exact isBound_of_mem_join hμ h
  | inverse s p o =>
    rw [extend] at h
    exact isBound_of_mem_join hμ h
  | filter e =>
    rw [extend] at h
    rwa [Multiset.mem_singleton.mp h]
  | optional es =>
    rw [extend] at h
    rcases Solutions.mem_leftJoin.mp h with h | ⟨h, -⟩
    · exact isBound_of_mem_join hμ h
    · rwa [Multiset.mem_singleton.mp h]
  | union branches =>
    rw [extend] at h
    exact isBound_of_mem_join hμ h
  | bind w e =>
    rw [extend, Multiset.map_singleton] at h
    rw [Multiset.mem_singleton.mp h, Solution.extended]
    split
    · exact Solution.isBound_set hμ
    · exact hμ

/-- What is bound stays bound. -/
theorem isBound_of_mem_extendAll {es : List Element} (hμ : μ.IsBound v)
    (h : κ ∈ extendAll c es {μ}) : κ.IsBound v := by
  induction es generalizing μ with
  | nil => rwa [mem_extendAll_nil.mp h]
  | cons e es ih =>
    obtain ⟨ν, hν, h⟩ := mem_extendAll_cons.mp h
    exact ih (Element.isBound_of_mem_extend hμ hν) h

/-- What some elements bind is bound after all of a list. -/
theorem isBound_of_mem {es : List Element} {ess : List (List Element)} (hmem : es ∈ ess)
    (hes : ∀ μ κ, κ ∈ extendAll c es {μ} → κ.IsBound v) (h : κ ∈ extendAll c ess.flatten {μ}) :
    κ.IsBound v := by
  obtain ⟨before, after, rfl⟩ := List.append_of_mem hmem
  rw [List.flatten_append, List.flatten_cons] at h
  obtain ⟨ν, hν, h⟩ := mem_extendAll_append.mp h
  obtain ⟨ν', hν', h⟩ := mem_extendAll_append.mp h
  exact isBound_of_mem_extendAll (hes ν ν' hν') h

end DocGraph
