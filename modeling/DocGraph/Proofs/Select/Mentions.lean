import DocGraph.Proofs.Select.Scope

/-!
# The variables that stand in a pattern

A variable may stand anywhere in a pattern: in a triple, in an expression, and in the patterns
that an expression asks for, where the solutions never show it. Two patterns that have no such
variable in common cannot interfere, whatever they are joined to.

The pattern of a group holds the variables of its elements and no others
(`mem_mentions_groupPattern`).
-/

namespace DocGraph

open Rdf (Variable)
open Sparql (Aggregate Expr Node Pattern SortKey Triple)

namespace Sparql

mutual

/-- The variables that stand in an expression. -/
def Expr.mentions : Expr → List Variable
  | .iri _ => []
  | .literal _ => []
  | .var v => [v]
  | .relation _ a b => a.mentions ++ b.mentions
  | .and a b => a.mentions ++ b.mentions
  | .not e => e.mentions
  | .oneOf e choices => e.mentions ++ Expr.allMentions choices
  | .call _ args => Expr.allMentions args
  | .coalesce args => Expr.allMentions args
  | .bound v => [v]
  | .hasMatch p => p.mentions

/-- The variables that stand in several expressions. -/
def Expr.allMentions : List Expr → List Variable
  | [] => []
  | e :: rest => e.mentions ++ Expr.allMentions rest

/-- The variables that stand in an aggregate. -/
def Aggregate.mentions : Aggregate → List Variable
  | .countAll _ => []
  | .reduce _ e _ => e.mentions

/-- The variables that stand in several aggregates and their results. -/
def Aggregate.allMentions : List (Variable × Aggregate) → List Variable
  | [] => []
  | (v, a) :: rest => v :: a.mentions ++ Aggregate.allMentions rest

/-- The variables that stand in a pattern. -/
def Pattern.mentions : Pattern → List Variable
  | .bgp ts => ts.flatMap Triple.variables
  | .inverse s _ o => o.variables ++ s.variables
  | .join l r => l.mentions ++ r.mentions
  | .leftJoin l r => l.mentions ++ r.mentions
  | .filter e p => e.mentions ++ p.mentions
  | .union l r => l.mentions ++ r.mentions
  | .graph _ p => p.mentions
  | .extend p v e => p.mentions ++ v :: e.mentions
  | .group p keys aggregates => p.mentions ++ keys ++ Aggregate.allMentions aggregates
  | .orderBy p keys => p.mentions ++ keys.map SortKey.column
  | .project p columns => p.mentions ++ columns
  | .distinct p => p.mentions
  | .slice p _ _ => p.mentions

end

variable {v : Variable}

theorem Expr.allMentions_append (es fs : List Expr) :
    allMentions (es ++ fs) = allMentions es ++ allMentions fs := by
  induction es with
  | nil => rfl
  | cons e es ih => rw [List.cons_append, allMentions, ih, allMentions, List.append_assoc]

theorem Expr.mentions_ofNode (n : Node) : (ofNode n).mentions = n.variables := by
  rcases n with v | (i | b | l) <;> rfl

theorem Expr.mentions_ofTerm (t : Rdf.Term) : (ofTerm t).mentions = [] := by
  cases t <;> rfl

theorem Expr.allMentions_ofTerms (ts : List Rdf.Term) : allMentions (ts.map ofTerm) = [] := by
  induction ts with
  | nil => rfl
  | cons t ts ih => rw [List.map_cons, allMentions, mentions_ofTerm, ih, List.append_nil]

theorem Expr.mentions_conjunction? {es : List Expr} {e : Expr} (h : conjunction? es = some e) :
    e.mentions = allMentions es := by
  cases es with
  | nil => cases h
  | cons first rest =>
    obtain rfl := Option.some.inj h
    have hfold (e : Expr) : (rest.foldl .and e).mentions = e.mentions ++ allMentions rest := by
      clear h
      induction rest generalizing e with
      | nil => exact (List.append_nil _).symm
      | cons next rest ih => rw [List.foldl_cons, ih, mentions, allMentions, List.append_assoc]
    exact hfold first

theorem Pattern.mem_mentions_joined {p q : Pattern} :
    v ∈ (p.joined q).mentions ↔ v ∈ p.mentions ∨ v ∈ q.mentions := by
  rcases joined_cases p q with ⟨rfl, h⟩ | ⟨rfl, h⟩ | ⟨ts, us, rfl, rfl, h⟩ | h <;> rw [h]
  · exact (or_iff_left List.not_mem_nil).symm
  · exact (or_iff_right List.not_mem_nil).symm
  · rw [mentions, mentions, mentions, List.flatMap_append, List.mem_append]
  · rw [mentions, List.mem_append]

end Sparql

variable {v : Variable}

theorem mem_mentions_unionOf {ps : List Pattern} :
    v ∈ (unionOf ps).mentions ↔ ∃ p ∈ ps, v ∈ p.mentions := by
  cases ps with
  | nil => simp [unionOf, Pattern.mentions, Expr.mentions, Pattern.empty]
  | cons first rest =>
    have hfold (p : Pattern) : v ∈ (rest.foldl .union p).mentions ↔
        v ∈ p.mentions ∨ ∃ p ∈ rest, v ∈ p.mentions := by
      induction rest generalizing p with
      | nil => simp
      | cons next rest ih =>
        rw [List.foldl_cons, ih, Pattern.mentions, List.mem_append, List.exists_mem_cons_iff,
          or_assoc]
    rw [unionOf, hfold, List.exists_mem_cons_iff]

/-! ## Elements -/

mutual

/-- The variables that stand in an element. -/
def Element.mentions : Element → List Variable
  | .triple t => t.variables
  | .inverse s _ o => o.variables ++ s.variables
  | .filter e => e.mentions
  | .optional es => elementMentions es
  | .union branches => branchMentions branches
  | .bind v e => v :: e.mentions

/-- The variables that stand in elements. -/
def elementMentions : List Element → List Variable
  | [] => []
  | e :: rest => e.mentions ++ elementMentions rest

/-- The variables that stand in groups. -/
def branchMentions : List (List Element) → List Variable
  | [] => []
  | es :: rest => elementMentions es ++ branchMentions rest

end

/-- The variables that stand in a column and its value elements. -/
def Column.mentions : Column → List Variable
  | .plain v => [v]
  | .aggregate v a values => v :: a.mentions ++ elementMentions (values.getD [])
  | .packed v raw encoded _ values => v :: raw :: encoded :: elementMentions values

variable {es fs : List Element}

theorem elementMentions_append (es fs : List Element) :
    elementMentions (es ++ fs) = elementMentions es ++ elementMentions fs := by
  induction es with
  | nil => rfl
  | cons e es ih =>
    rw [List.cons_append, elementMentions, ih, elementMentions, List.append_assoc]

theorem mem_elementMentions : v ∈ elementMentions es ↔ ∃ e ∈ es, v ∈ e.mentions := by
  induction es with
  | nil => simp [elementMentions]
  | cons e es ih => rw [elementMentions, List.mem_append, ih, List.exists_mem_cons_iff]

theorem elementMentions_singleton (e : Element) : elementMentions [e] = e.mentions :=
  List.append_nil _

theorem mem_branchMentions {branches : List (List Element)} :
    v ∈ branchMentions branches ↔ ∃ es ∈ branches, v ∈ elementMentions es := by
  induction branches with
  | nil => simp [branchMentions]
  | cons es rest ih => rw [branchMentions, List.mem_append, ih, List.exists_mem_cons_iff]

theorem mem_elementMentions_flatten {ess : List (List Element)} :
    v ∈ elementMentions ess.flatten ↔ ∃ es ∈ ess, v ∈ elementMentions es := by
  induction ess with
  | nil => simp [elementMentions]
  | cons es ess ih =>
    rw [List.flatten_cons, elementMentions_append, List.mem_append, ih, List.exists_mem_cons_iff]

/-! ## Groups -/

namespace GroupState

/-- The variables that stand in a group that is being read. -/
def mentions (g : GroupState) : List Variable :=
  g.pattern.mentions ++ (g.triples.flatMap Triple.variables ++ Expr.allMentions g.filters)

variable {g : GroupState}

theorem mem_mentions : v ∈ g.mentions ↔
    v ∈ g.pattern.mentions ∨ v ∈ g.triples.flatMap Triple.variables ∨
      v ∈ Expr.allMentions g.filters := by
  rw [mentions, List.mem_append, List.mem_append]

theorem mem_mentions_flush :
    v ∈ g.flush.pattern.mentions ↔
      v ∈ g.pattern.mentions ∨ v ∈ g.triples.flatMap Triple.variables := by
  rw [flush, Pattern.mem_mentions_joined, Pattern.mentions]

theorem mem_mentions_finish : v ∈ g.finish.mentions ↔ v ∈ g.mentions := by
  rw [mem_mentions, ← or_assoc, ← mem_mentions_flush]
  unfold finish
  cases hfilters : Expr.conjunction? g.filters with
  | none =>
    have hnil : g.filters = [] := by
      cases hg : g.filters with
      | nil => rfl
      | cons e rest =>
        rw [hg] at hfilters
        cases hfilters
    rw [hnil]
    exact (or_iff_left List.not_mem_nil).symm
  | some e =>
    dsimp only
    rw [Pattern.mentions, List.mem_append, Expr.mentions_conjunction? hfilters, or_comm]

/-- What comes after the triples so far goes into the pattern. -/
theorem mem_mentions_after {p : Pattern} {vs : List Variable}
    (h : v ∈ p.mentions ↔ v ∈ g.flush.pattern.mentions ∨ v ∈ vs) :
    v ∈ ({ g.flush with pattern := p } : GroupState).mentions ↔ v ∈ g.mentions ∨ v ∈ vs := by
  have hpattern : v ∈ ({ g.flush with pattern := p } : GroupState).mentions ↔
      v ∈ p.mentions ∨ v ∈ Expr.allMentions g.filters :=
    mem_mentions.trans (or_congr_right (or_iff_right List.not_mem_nil))
  rw [hpattern, h, mem_mentions_flush, mem_mentions]
  exact or_right_comm.trans (or_congr_left or_assoc)

end GroupState

mutual

theorem mem_mentions_addTo {g : GroupState} :
    ∀ e : Element, v ∈ (e.addTo g).mentions ↔ v ∈ g.mentions ∨ v ∈ e.mentions
  | .triple t => by
    rw [Element.addTo, Element.mentions, GroupState.mem_mentions, GroupState.mem_mentions]
    dsimp only
    rw [List.flatMap_append, List.mem_append, List.flatMap_singleton, or_right_comm, ← or_assoc,
      ← or_assoc]
  | .inverse s p o => by
    rw [Element.addTo, Element.mentions]
    refine GroupState.mem_mentions_after ?_
    rw [Pattern.mem_mentions_joined, Pattern.mentions]
  | .filter e => by
    have hflush : v ∈ ({ g.flush with filters := g.filters ++ [e] } : GroupState).mentions ↔
        v ∈ g.flush.pattern.mentions ∨ v ∈ Expr.allMentions (g.filters ++ [e]) :=
      GroupState.mem_mentions.trans (or_congr_right (or_iff_right List.not_mem_nil))
    rw [Element.addTo, Element.mentions, hflush, GroupState.mem_mentions_flush,
      GroupState.mem_mentions, Expr.allMentions_append, List.mem_append, Expr.allMentions,
      Expr.allMentions, List.append_nil, or_assoc, or_assoc, or_assoc]
  | .optional es => by
    rw [Element.addTo, Element.mentions]
    refine GroupState.mem_mentions_after ?_
    rw [Pattern.mentions, List.mem_append, GroupState.mem_mentions_finish, mem_mentions_addAll es]
    exact or_congr_right (or_iff_right List.not_mem_nil)
  | .union branches => by
    rw [Element.addTo, Element.mentions]
    refine GroupState.mem_mentions_after ?_
    rw [Pattern.mem_mentions_joined, mem_mentions_unionOf, mem_mentions_branchPatterns branches]
  | .bind w e => by
    rw [Element.addTo, Element.mentions]
    refine GroupState.mem_mentions_after ?_
    rw [Pattern.mentions, List.mem_append]

theorem mem_mentions_addAll {g : GroupState} :
    ∀ es : List Element, v ∈ (addAll g es).mentions ↔ v ∈ g.mentions ∨ v ∈ elementMentions es
  | [] => (or_iff_left List.not_mem_nil).symm
  | e :: rest => by
    rw [addAll, mem_mentions_addAll rest, mem_mentions_addTo e, elementMentions, List.mem_append,
      or_assoc]

theorem mem_mentions_branchPatterns : ∀ branches : List (List Element),
    (∃ p ∈ branchPatterns branches, v ∈ p.mentions) ↔ v ∈ branchMentions branches
  | [] => by simp [branchPatterns, branchMentions]
  | es :: rest => by
    rw [branchPatterns, branchMentions, List.exists_mem_cons_iff, List.mem_append,
      GroupState.mem_mentions_finish, mem_mentions_addAll es, mem_mentions_branchPatterns rest]
    exact or_congr_left (or_iff_right List.not_mem_nil)

end

/-- The pattern of a group holds the variables of its elements, and no others. -/
theorem mem_mentions_groupPattern : v ∈ (groupPattern es).mentions ↔ v ∈ elementMentions es := by
  rw [groupPattern, GroupState.mem_mentions_finish, mem_mentions_addAll]
  exact or_iff_right List.not_mem_nil

end DocGraph
