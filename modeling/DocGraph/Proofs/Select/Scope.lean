import DocGraph.Proofs.Select.Patterns
import DocGraph.Proofs.Select.Variables
import DocGraph.Proofs.Sparql.Groups

/-!
# Variables in scope

SPARQL has rules for the variables of a query: what `BIND`, an aggregate or an expression of
a `SELECT` assigns is bound nowhere else in its group, and what a query selects, groups by or
orders by is in scope (`Pattern.IsScoped`). In scope of a pattern are the variables that its
solutions may bind (`Pattern.apply_of_mem_eval`).
-/

namespace DocGraph

open Rdf (Variable)
open Sparql (Aggregate Context Expr Node Pattern Solution Solutions Triple solutionsOf)

namespace Sparql

namespace Pattern

/-- The variables that are in scope of a pattern. -/
def scope : Pattern → List Variable
  | .bgp triples => triples.flatMap Triple.variables
  | .inverse s _ o => o.variables ++ s.variables
  | .join l r => l.scope ++ r.scope
  | .leftJoin l r => l.scope ++ r.scope
  | .filter _ p => p.scope
  | .union l r => l.scope ++ r.scope
  | .graph _ p => p.scope
  | .extend p v _ => p.scope ++ [v]
  | .group _ keys aggregates => keys ++ aggregates.map Prod.fst
  | .orderBy p _ => p.scope
  | .project _ columns => columns
  | .distinct p => p.scope
  | .slice p _ _ => p.scope

/-- The variables that a pattern assigns values to and that are in scope of it. The keys of
a group are not among them: groups are joined on these. -/
def assigned : Pattern → List Variable
  | .bgp _ => []
  | .inverse _ _ _ => []
  | .join l r => l.assigned ++ r.assigned
  | .leftJoin l r => l.assigned ++ r.assigned
  | .filter _ p => p.assigned
  | .union l r => l.assigned ++ r.assigned
  | .graph _ p => p.assigned
  | .extend p v _ => p.assigned ++ [v]
  | .group _ _ aggregates => aggregates.map Prod.fst
  | .orderBy p _ => p.assigned
  | .project p columns => p.assigned.filter (· ∈ columns)
  | .distinct p => p.assigned
  | .slice p _ _ => p.assigned

/-- Whether neither of two patterns binds what the other one assigns. -/
structure Apart (l r : Pattern) : Prop where
  left : l.assigned.Disjoint r.scope
  right : l.scope.Disjoint r.assigned

end Pattern

mutual

/-- Whether the patterns that an expression asks for obey the rules. -/
def Expr.IsScoped : Expr → Prop
  | .iri _ => True
  | .literal _ => True
  | .var _ => True
  | .relation _ a b => a.IsScoped ∧ b.IsScoped
  | .and a b => a.IsScoped ∧ b.IsScoped
  | .not e => e.IsScoped
  | .oneOf e choices => e.IsScoped ∧ Expr.AreScoped choices
  | .call _ args => Expr.AreScoped args
  | .coalesce args => Expr.AreScoped args
  | .bound _ => True
  | .hasMatch p => p.IsScoped

/-- Whether the patterns that several expressions ask for obey the rules. -/
def Expr.AreScoped : List Expr → Prop
  | [] => True
  | e :: rest => e.IsScoped ∧ Expr.AreScoped rest

/-- Whether the patterns that an aggregate asks for obey the rules. -/
def Aggregate.IsScoped : Aggregate → Prop
  | .countAll _ => True
  | .reduce _ e _ => e.IsScoped

/-- Whether the patterns that several aggregates ask for obey the rules. -/
def Aggregate.AreScoped : List (Variable × Aggregate) → Prop
  | [] => True
  | (_, a) :: rest => a.IsScoped ∧ Aggregate.AreScoped rest

/-- Whether a pattern, and every pattern in it, obeys the rules for variables. -/
def Pattern.IsScoped : Pattern → Prop
  | .bgp _ => True
  | .inverse _ _ _ => True
  | .join l r => l.IsScoped ∧ r.IsScoped ∧ l.Apart r
  | .leftJoin l r => l.IsScoped ∧ r.IsScoped ∧ l.Apart r
  | .filter e p => e.IsScoped ∧ p.IsScoped
  | .union l r => l.IsScoped ∧ r.IsScoped
  | .graph _ p => p.IsScoped
  | .extend p v e => p.IsScoped ∧ e.IsScoped ∧ v ∉ p.scope
  | .group p keys aggregates =>
    p.IsScoped ∧ Aggregate.AreScoped aggregates ∧ keys ⊆ p.scope ∧
      (aggregates.map Prod.fst).Nodup ∧ p.scope.Disjoint (aggregates.map Prod.fst)
  | .orderBy p keys => p.IsScoped ∧ ∀ key ∈ keys, key.column ∈ p.scope
  | .project p columns => p.IsScoped ∧ columns.Nodup ∧ columns ⊆ p.scope
  | .distinct p => p.IsScoped
  | .slice p _ _ => p.IsScoped

end

/-! ## Expressions without patterns -/

mutual

/-- Whether an expression asks for no pattern. -/
def Expr.IsPatternFree : Expr → Prop
  | .iri _ => True
  | .literal _ => True
  | .var _ => True
  | .relation _ a b => a.IsPatternFree ∧ b.IsPatternFree
  | .and a b => a.IsPatternFree ∧ b.IsPatternFree
  | .not e => e.IsPatternFree
  | .oneOf e choices => e.IsPatternFree ∧ Expr.ArePatternFree choices
  | .call _ args => Expr.ArePatternFree args
  | .coalesce args => Expr.ArePatternFree args
  | .bound _ => True
  | .hasMatch _ => False

/-- Whether several expressions ask for no pattern. -/
def Expr.ArePatternFree : List Expr → Prop
  | [] => True
  | e :: rest => e.IsPatternFree ∧ Expr.ArePatternFree rest

end

namespace Expr

theorem arePatternFree_of_forall {es : List Expr} (h : ∀ e ∈ es, e.IsPatternFree) :
    ArePatternFree es := by
  induction es with
  | nil =>
    rw [ArePatternFree]
    trivial
  | cons e es ih =>
    rw [List.forall_mem_cons] at h
    rw [ArePatternFree]
    exact ⟨h.1, ih h.2⟩

theorem isPatternFree_string (s : String) : (string s).IsPatternFree := by
  simp only [string, IsPatternFree]

theorem isPatternFree_ofTerm (t : Rdf.Term) : (ofTerm t).IsPatternFree := by
  cases t <;> simp only [ofTerm, string, IsPatternFree]

theorem isPatternFree_ofNode (n : Node) : (ofNode n).IsPatternFree := by
  cases n with
  | var v => simp only [ofNode, IsPatternFree]
  | term t => exact isPatternFree_ofTerm t

mutual

theorem IsPatternFree.isScoped : ∀ {e : Expr}, e.IsPatternFree → e.IsScoped
  | .iri _, _ | .literal _, _ | .var _, _ | .bound _, _ => by
    rw [IsScoped]
    trivial
  | .relation _ _ _, h | .and _ _, h => by
    rw [IsPatternFree] at h
    rw [IsScoped]
    exact ⟨h.1.isScoped, h.2.isScoped⟩
  | .not _, h => by
    rw [IsPatternFree] at h
    rw [IsScoped]
    exact h.isScoped
  | .oneOf _ _, h => by
    rw [IsPatternFree] at h
    rw [IsScoped]
    exact ⟨h.1.isScoped, h.2.areScoped⟩
  | .call _ _, h | .coalesce _, h => by
    rw [IsPatternFree] at h
    rw [IsScoped]
    exact h.areScoped
  | .hasMatch _, h => by
    rw [IsPatternFree] at h
    exact h.elim

theorem ArePatternFree.areScoped : ∀ {es : List Expr}, ArePatternFree es → AreScoped es
  | [], _ => by
    rw [AreScoped]
    trivial
  | _ :: _, h => by
    rw [ArePatternFree] at h
    rw [AreScoped]
    exact ⟨h.1.isScoped, h.2.areScoped⟩

end

end Expr

/-- Whether an aggregate asks for no pattern. -/
def Aggregate.IsPatternFree : Aggregate → Prop
  | .countAll _ => True
  | .reduce _ e _ => e.IsPatternFree

theorem Aggregate.IsPatternFree.isScoped {a : Aggregate} (h : a.IsPatternFree) : a.IsScoped := by
  cases a with
  | countAll distinct =>
    rw [IsScoped]
    trivial
  | reduce r e distinct =>
    rw [IsScoped]
    exact Expr.IsPatternFree.isScoped h

/-! ## What is in scope -/

variable {c : Context} {μ : Solution} {v : Variable}

theorem apply_of_mem_solutionsOf {ts : List Triple} (hv : v ∉ ts.flatMap Triple.variables)
    (h : μ ∈ solutionsOf c ts) : μ v = none := by
  induction ts generalizing μ with
  | nil =>
    rw [solutionsOf, Multiset.mem_singleton] at h
    rw [h, Solution.empty_apply]
  | cons t ts ih =>
    rw [List.flatMap_cons, List.mem_append, not_or] at hv
    rw [solutionsOf] at h
    obtain ⟨ν, hν, κ, hκ, -, rfl⟩ := Solutions.mem_join.mp h
    rw [← Solutions.empty_extensions (t.solutions c)] at hν
    rw [Solution.merge, Triple.apply_of_mem_extensions hν hv.1, Solution.empty_apply,
      Option.none_or, ih hv.2 hκ]

theorem apply_of_mem_groupKeys {keys : List Variable} {ss : Solutions} (hv : v ∉ keys)
    (h : μ ∈ groupKeys keys ss) : μ v = none := by
  classical
  rw [groupKeys] at h
  split at h
  · rw [Multiset.mem_singleton.mp h, Solution.empty_apply]
  · obtain ⟨ν, -, rfl⟩ := Multiset.mem_map.mp (Multiset.mem_dedup.mp h)
    exact Solution.restrict_of_notMem hv

theorem apply_of_mem_merged {A B : Solutions} (hA : ∀ ν ∈ A, ν v = none) (hB : ∀ ν ∈ B, ν v = none)
    (h : μ ∈ Solutions.join A B) : μ v = none := by
  obtain ⟨ν, hν, κ, hκ, -, rfl⟩ := Solutions.mem_join.mp h
  rw [Solution.merge, hA ν hν, hB κ hκ, Option.none_or]

/-- The solutions of a pattern bind nothing but what is in scope of it. -/
theorem Pattern.apply_of_mem_eval : ∀ (p : Pattern) (c : Context) (μ : Solution), v ∉ p.scope →
    μ ∈ p.eval c → μ v = none
  | .bgp ts, c, μ, hv, h => apply_of_mem_solutionsOf hv h
  | .inverse s i o, c, μ, hv, h => by
    rw [eval, ← Solutions.empty_extensions (Triple.solutions c _)] at h
    rw [Triple.apply_of_mem_extensions h hv, Solution.empty_apply]
  | .join l r, c, μ, hv, h => by
    rw [scope, List.mem_append, not_or] at hv
    rw [eval] at h
    exact apply_of_mem_merged (fun ν => apply_of_mem_eval l c ν hv.1)
      (fun ν => apply_of_mem_eval r c ν hv.2) h
  | .leftJoin l r, c, μ, hv, h => by
    rw [scope, List.mem_append, not_or] at hv
    rw [eval] at h
    rcases Solutions.mem_leftJoin.mp h with h | ⟨h, -⟩
    · exact apply_of_mem_merged (fun ν => apply_of_mem_eval l c ν hv.1)
        (fun ν => apply_of_mem_eval r c ν hv.2) h
    · exact apply_of_mem_eval l c μ hv.1 h
  | .filter e p, c, μ, hv, h => by
    rw [eval_filter] at h
    exact apply_of_mem_eval p c μ hv (mem_passing.mp h).1
  | .union l r, c, μ, hv, h => by
    rw [scope, List.mem_append, not_or] at hv
    rw [eval, Multiset.mem_add] at h
    rcases h with h | h
    · exact apply_of_mem_eval l c μ hv.1 h
    · exact apply_of_mem_eval r c μ hv.2 h
  | .graph g p, c, μ, hv, h => by
    rw [eval] at h
    exact apply_of_mem_eval p (c.within g) μ hv h
  | .extend p w e, c, μ, hv, h => by
    rw [scope, List.mem_append, not_or, List.mem_singleton] at hv
    rw [eval] at h
    obtain ⟨ν, hν, rfl⟩ := Multiset.mem_map.mp h
    exact (Solution.extended_of_ne hv.2).trans (apply_of_mem_eval p c ν hv.1 hν)
  | .group p keys aggregates, c, μ, hv, h => by
    rw [scope, List.mem_append, not_or] at hv
    rw [eval] at h
    obtain ⟨key, hkey, rfl⟩ := Multiset.mem_map.mp h
    rw [Aggregate.bindAll_of_notMem hv.2, apply_of_mem_groupKeys hv.1 hkey]
  | .orderBy p keys, c, μ, hv, h => by
    rw [eval] at h
    exact apply_of_mem_eval p c μ hv h
  | .project p columns, c, μ, hv, h => by
    rw [eval] at h
    obtain ⟨ν, -, rfl⟩ := Multiset.mem_map.mp h
    exact Solution.restrict_of_notMem hv
  | .distinct p, c, μ, hv, h => by
    classical
    rw [eval] at h
    exact apply_of_mem_eval p c μ hv (Multiset.mem_dedup.mp h)
  | .slice p start length, c, μ, hv, h => by
    refine apply_of_mem_eval p c μ hv ?_
    rw [← c.store.sequence_perm p (p.eval c), Multiset.mem_coe]
    refine List.mem_of_mem_drop (i := start) ?_
    rw [eval.eq_def] at h
    cases length with
    | none => exact h
    | some n => exact List.mem_of_mem_take h

/-! ## Joins and unions -/

namespace Pattern

theorem mem_scope_of_mem_assigned : ∀ p : Pattern, v ∈ p.assigned → v ∈ p.scope
  | .bgp _, h => nomatch h
  | .inverse _ _ _, h => nomatch h
  | .join l r, h => List.mem_append.mpr ((List.mem_append.mp h).imp
      (mem_scope_of_mem_assigned l) (mem_scope_of_mem_assigned r))
  | .leftJoin l r, h => List.mem_append.mpr ((List.mem_append.mp h).imp
      (mem_scope_of_mem_assigned l) (mem_scope_of_mem_assigned r))
  | .filter _ p, h => mem_scope_of_mem_assigned p h
  | .union l r, h => List.mem_append.mpr ((List.mem_append.mp h).imp
      (mem_scope_of_mem_assigned l) (mem_scope_of_mem_assigned r))
  | .graph _ p, h => mem_scope_of_mem_assigned p h
  | .extend p _ _, h => List.mem_append.mpr ((List.mem_append.mp h).imp
      (mem_scope_of_mem_assigned p) id)
  | .group _ _ _, h => List.mem_append_right _ h
  | .orderBy p _, h => mem_scope_of_mem_assigned p h
  | .project _ _, h => of_decide_eq_true (List.mem_filter.mp h).2
  | .distinct p, h => mem_scope_of_mem_assigned p h
  | .slice p _ _, h => mem_scope_of_mem_assigned p h

variable {p q : Pattern}

theorem eq_empty_of_isEmpty (h : p.isEmpty = true) : p = .empty := by
  cases p with
  | bgp ts =>
    cases ts with
    | nil => rfl
    | cons t ts => cases h
  | _ => cases h

theorem joined_cases (p q : Pattern) :
    (q = .empty ∧ p.joined q = p) ∨ (p = .empty ∧ p.joined q = q) ∨
      (∃ ts us, p = .bgp ts ∧ q = .bgp us ∧ p.joined q = .bgp (ts ++ us)) ∨
        p.joined q = .join p q := by
  unfold joined
  by_cases hq : q.isEmpty = true
  · exact .inl ⟨eq_empty_of_isEmpty hq, if_pos hq⟩
  rw [if_neg hq]
  by_cases hp : p.isEmpty = true
  · exact .inr (.inl ⟨eq_empty_of_isEmpty hp, if_pos hp⟩)
  rw [if_neg hp]
  split
  · exact .inr (.inr (.inl ⟨_, _, rfl, rfl, rfl⟩))
  · exact .inr (.inr (.inr rfl))

theorem scope_joined (p q : Pattern) : (p.joined q).scope = p.scope ++ q.scope := by
  rcases joined_cases p q with ⟨rfl, h⟩ | ⟨rfl, h⟩ | ⟨ts, us, rfl, rfl, h⟩ | h <;> rw [h]
  · exact (List.append_nil _).symm
  · rfl
  · exact List.flatMap_append
  · rfl

theorem assigned_joined (p q : Pattern) : (p.joined q).assigned = p.assigned ++ q.assigned := by
  rcases joined_cases p q with ⟨rfl, h⟩ | ⟨rfl, h⟩ | ⟨ts, us, rfl, rfl, h⟩ | h <;> rw [h]
  · exact (List.append_nil _).symm
  · rfl
  · rfl
  · rfl

theorem isScoped_joined (hp : p.IsScoped) (hq : q.IsScoped) (hapart : p.Apart q) :
    (p.joined q).IsScoped := by
  rcases joined_cases p q with ⟨-, h⟩ | ⟨-, h⟩ | ⟨ts, us, -, -, h⟩ | h <;> rw [h]
  · exact hp
  · exact hq
  · rw [IsScoped]
    trivial
  · rw [IsScoped]
    exact ⟨hp, hq, hapart⟩

end Pattern

/-- What holds of some expressions, and of two that both hold, holds of their conjunction. -/
theorem Expr.conjunction?_induction {P : Expr → Prop} (hand : ∀ e f, P e → P f → P (.and e f))
    {es : List Expr} {e : Expr} (h : conjunction? es = some e) (hes : ∀ e ∈ es, P e) : P e := by
  cases es with
  | nil => cases h
  | cons f rest =>
    rw [List.forall_mem_cons] at hes
    obtain rfl := Option.some.inj h
    exact List.foldlRecOn rest .and hes.1 fun e he f hf => hand e f he (hes.2 f hf)

theorem Expr.isScoped_conjunction? {es : List Expr} {e : Expr} (h : conjunction? es = some e)
    (hes : ∀ e ∈ es, e.IsScoped) : e.IsScoped := by
  refine conjunction?_induction (fun e f he hf => ?_) h hes
  rw [IsScoped]
  exact ⟨he, hf⟩

end Sparql

end DocGraph
