import DocGraph.Proofs.Sparql.Semantics
import DocGraph.Select.Lower

/-!
# What a group means

The solutions of the elements of a group, taken from left to right: each element
extends the solutions so far, and at the end the filters of the group test all
of them, wherever they stand. `eval_groupPattern` says that the pattern of the
group has exactly these solutions.
-/

namespace DocGraph

open Sparql (Context Expr Pattern Solution Solutions Triple solutionsOf)
open Sparql.Solutions (join leftJoin)

/-- Whether a filter accepts a solution. -/
def Sparql.Expr.Holds (e : Expr) (c : Context) (μ : Solution) : Prop :=
  (e.eval c μ).bind c.store.truthOf = some true

/-- A solution with one more variable, if its value exists. -/
noncomputable def Sparql.Solution.extended (μ : Solution) (c : Context) (v : Rdf.Variable)
    (e : Expr) : Solution :=
  match e.eval c μ with
  | some t => μ.set v t
  | none => μ

/-- The test of an element that is a filter. -/
def Element.filter? : Element → Option Expr
  | .filter e => some e
  | _ => none

/-- The tests of the filters of a group. -/
def filtersOf (es : List Element) : List Expr :=
  es.filterMap Element.filter?

open scoped Classical in
/-- The solutions that pass some tests. -/
noncomputable def Sparql.Solutions.passing (ss : Solutions) (c : Context) (tests : List Expr) :
    Solutions :=
  ss.filter fun μ => ∀ e ∈ tests, e.Holds c μ

open Sparql.Solutions (passing)

mutual

/-- The solutions so far with one more element. -/
noncomputable def Element.extend (c : Context) : Element → Solutions → Solutions
  | .triple t, ss => join ss (t.solutions c)
  | .inverse s p o, ss => join ss (Triple.solutions c ⟨o, .iri p, s⟩)
  | .filter _, ss => ss
  | .optional es, ss => leftJoin ss ((extendAll c es {.empty}).passing c (filtersOf es))
  | .union branches, ss => join ss (branchSolutions c branches)
  | .bind v e, ss => ss.map fun μ => μ.extended c v e

/-- The solutions so far with more elements. -/
noncomputable def extendAll (c : Context) : List Element → Solutions → Solutions
  | [], ss => ss
  | e :: rest, ss => extendAll c rest (e.extend c ss)

/-- The solutions of several groups. -/
noncomputable def branchSolutions (c : Context) : List (List Element) → Solutions
  | [] => 0
  | es :: rest => (extendAll c es {.empty}).passing c (filtersOf es) + branchSolutions c rest

end

/-- The solutions of a group. -/
noncomputable def groupSolutions (c : Context) (es : List Element) : Solutions :=
  (extendAll c es {.empty}).passing c (filtersOf es)

/-! ## The pattern of a group -/

namespace Sparql

theorem solutionsOf_append (c : Context) (ts us : List Triple) :
    solutionsOf c (ts ++ us) = join (solutionsOf c ts) (solutionsOf c us) := by
  induction ts with
  | nil => exact (Solutions.unit_join _).symm
  | cons t ts ih => rw [List.cons_append, solutionsOf, ih, solutionsOf, Solutions.join_assoc]

theorem solutionsOf_singleton (c : Context) (t : Triple) : solutionsOf c [t] = t.solutions c :=
  Solutions.join_unit _

namespace Pattern

theorem eval_empty (c : Context) : Pattern.empty.eval c = {.empty} := rfl

theorem eval_of_isEmpty {p : Pattern} (h : p.isEmpty = true) (c : Context) :
    p.eval c = {.empty} := by
  cases p with
  | bgp ts =>
    cases ts with
    | nil => rfl
    | cons t ts => simp [isEmpty] at h
  | _ => simp [isEmpty] at h

/-- Leaving out the empty pattern and joining lists of triples changes no
solution. -/
theorem eval_joined (p q : Pattern) (c : Context) :
    (p.joined q).eval c = Solutions.join (p.eval c) (q.eval c) := by
  unfold joined
  by_cases hq : q.isEmpty = true
  · rw [if_pos hq, eval_of_isEmpty hq, Solutions.join_unit]
  rw [if_neg hq]
  by_cases hp : p.isEmpty = true
  · rw [if_pos hp, eval_of_isEmpty hp, Solutions.unit_join]
  rw [if_neg hp]
  split
  · exact solutionsOf_append c _ _
  · rfl

theorem eval_filter (e : Expr) (p : Pattern) (c : Context) :
    (Pattern.filter e p).eval c = (p.eval c).passing c [e] := by
  simp only [eval, passing, List.mem_singleton, forall_eq, Expr.Holds]

/-- The solutions of a union are those of its parts. -/
theorem eval_foldl_union (ps : List Pattern) (p : Pattern) (c : Context) :
    (ps.foldl .union p).eval c = p.eval c + (ps.map (·.eval c)).sum := by
  induction ps generalizing p with
  | nil => simp
  | cons q ps ih => rw [List.foldl_cons, ih, List.map_cons, List.sum_cons, ← add_assoc]; rfl

end Pattern

/-! ## The conjunction of filters -/

@[simp] theorem Store.truthOf_ofBool (s : Store) (b : Bool) : s.truthOf (ofBool b) = some b := by
  cases b <;> rfl

theorem both_eq_true {a b : Option Bool} :
    both a b = some true ↔ a = some true ∧ b = some true := by
  rcases a with _ | _ | _ <;> rcases b with _ | _ | _ <;> simp [both]

namespace Expr

theorem holds_and {a b : Expr} {c : Context} {μ : Solution} :
    (Expr.and a b).Holds c μ ↔ a.Holds c μ ∧ b.Holds c μ := by
  rw [Holds, Holds, Holds, ← both_eq_true, eval]
  cases both ((a.eval c μ).bind c.store.truthOf) ((b.eval c μ).bind c.store.truthOf) <;> simp

theorem holds_foldl_and {es : List Expr} {e : Expr} {c : Context} {μ : Solution} :
    (es.foldl .and e).Holds c μ ↔ e.Holds c μ ∧ ∀ e' ∈ es, e'.Holds c μ := by
  induction es generalizing e with
  | nil => simp
  | cons e' es ih => rw [List.foldl_cons, ih, holds_and, List.forall_mem_cons, and_assoc]

theorem not_holds_false (c : Context) (μ : Solution) :
    ¬(Expr.literal (.ofBool false)).Holds c μ := by
  have h : c.store.truthOf (.literal (.ofBool false)) = some false := c.store.truthOf_ofBool false
  simp [Holds, eval, h]

end Expr

end Sparql

open Sparql (Expr.holds_foldl_and solutionsOf_append solutionsOf_singleton)

theorem passing_nil (ss : Solutions) (c : Context) : ss.passing c [] = ss := by
  simp [passing]

theorem passing_congr {ss : Solutions} {c : Context} {es fs : List Expr}
    (h : ∀ μ ∈ ss, (∀ e ∈ es, e.Holds c μ) ↔ ∀ e ∈ fs, e.Holds c μ) :
    ss.passing c es = ss.passing c fs := by
  classical
  exact Multiset.filter_congr h

theorem mem_passing {ss : Solutions} {c : Context} {es : List Expr} {μ : Solution} :
    μ ∈ ss.passing c es ↔ μ ∈ ss ∧ ∀ e ∈ es, e.Holds c μ := by
  classical
  exact Multiset.mem_filter

/-! ## The solutions of a group state -/

namespace GroupState

/-- The solutions of a group that is being read, before its filters. -/
noncomputable def solutions (g : GroupState) (c : Context) : Solutions :=
  join (g.pattern.eval c) (solutionsOf c g.triples)

theorem eval_flush (g : GroupState) (c : Context) : g.flush.pattern.eval c = g.solutions c :=
  Pattern.eval_joined _ _ c

/-- A state without triples has the solutions of its pattern. -/
theorem solutions_of_triples {g : GroupState} (h : g.triples = []) (c : Context) :
    g.solutions c = g.pattern.eval c := by
  rw [solutions, h]
  exact Solutions.join_unit _

theorem solutions_start (c : Context) : ({} : GroupState).solutions c = {.empty} :=
  solutions_of_triples rfl c

theorem eval_finish (g : GroupState) (c : Context) :
    g.finish.eval c = (g.solutions c).passing c g.filters := by
  unfold finish
  cases h : g.filters with
  | nil => rw [Expr.conjunction?, eval_flush, passing_nil]
  | cons e es =>
    simp only [Expr.conjunction?, Pattern.eval_filter, eval_flush]
    refine passing_congr fun μ _ => ?_
    simp only [List.mem_singleton, forall_eq, Expr.holds_foldl_and, List.forall_mem_cons]

end GroupState

/-- A union has the solutions of all its patterns, and none without any. -/
theorem eval_unionOf (ps : List Pattern) (c : Context) :
    (unionOf ps).eval c = (ps.map (·.eval c)).sum := by
  cases ps with
  | nil =>
    rw [unionOf, Pattern.eval_filter, List.map_nil, List.sum_nil]
    refine Multiset.eq_zero_of_forall_notMem fun μ hμ => ?_
    exact Expr.not_holds_false c μ ((mem_passing.mp hμ).2 _ (List.mem_singleton_self _))
  | cons p ps => rw [unionOf, Pattern.eval_foldl_union, List.map_cons, List.sum_cons]

theorem addTo_filters (g : GroupState) (e : Element) :
    (e.addTo g).filters = g.filters ++ e.filter?.toList := by
  cases e <;> simp [Element.addTo, GroupState.flush, Element.filter?]

theorem addAll_filters (es : List Element) (g : GroupState) :
    (addAll g es).filters = g.filters ++ filtersOf es := by
  induction es generalizing g with
  | nil => simp [addAll, filtersOf]
  | cons e es ih =>
    rw [addAll, ih, addTo_filters, List.append_assoc]
    cases h : e.filter? <;> simp [filtersOf, h]

mutual

/-- One more element changes the solutions of a state as it extends a bag. -/
theorem solutions_addTo (c : Context) (g : GroupState) :
    ∀ e : Element, (e.addTo g).solutions c = e.extend c (g.solutions c)
  | .triple t => by
    rw [Element.addTo, Element.extend, GroupState.solutions, GroupState.solutions,
      solutionsOf_append, solutionsOf_singleton, Solutions.join_assoc]
  | .inverse s p o => by
    rw [Element.addTo, Element.extend, GroupState.solutions_of_triples rfl, Pattern.eval_joined,
      GroupState.eval_flush, Pattern.eval]
  | .filter e => by
    rw [Element.addTo, Element.extend, GroupState.solutions_of_triples rfl, GroupState.eval_flush]
  | .optional es => by
    rw [Element.addTo, Element.extend, GroupState.solutions_of_triples rfl, Pattern.eval,
      GroupState.eval_flush, eval_addAll c es]
  | .union branches => by
    rw [Element.addTo, Element.extend, GroupState.solutions_of_triples rfl, Pattern.eval_joined,
      GroupState.eval_flush, eval_unionOf, sum_branchPatterns c branches]
  | .bind v e => by
    rw [Element.addTo, Element.extend, GroupState.solutions_of_triples rfl, Pattern.eval,
      GroupState.eval_flush]
    rfl

theorem solutions_addAll (c : Context) :
    ∀ (es : List Element) (g : GroupState),
      (addAll g es).solutions c = extendAll c es (g.solutions c)
  | [], _ => rfl
  | e :: es, g => by
    rw [addAll, extendAll, solutions_addAll c es, solutions_addTo c g e]

theorem eval_addAll (c : Context) (es : List Element) :
    (addAll {} es).finish.eval c = (extendAll c es {.empty}).passing c (filtersOf es) := by
  rw [GroupState.eval_finish, solutions_addAll c es, GroupState.solutions_start, addAll_filters,
    List.nil_append]

theorem sum_branchPatterns (c : Context) :
    ∀ branches : List (List Element),
      ((branchPatterns branches).map (·.eval c)).sum = branchSolutions c branches
  | [] => rfl
  | es :: rest => by
    rw [branchPatterns, List.map_cons, List.sum_cons, branchSolutions, eval_addAll c es,
      sum_branchPatterns c rest]

end

/-- The pattern of a group has the solutions of the group. -/
theorem eval_groupPattern (c : Context) (es : List Element) :
    (groupPattern es).eval c = groupSolutions c es :=
  eval_addAll c es

end DocGraph
