import DocGraph.Proofs.Select.ScopedRows

/-!
# Patterns in one graph

A pattern stays in a graph if all that it matches statements with is under exactly one `GRAPH`
node, which names that graph, and under none for the default graph (`Pattern.StaysIn`). This
includes the patterns that its expressions ask for. The solutions of such a pattern depend on
no other graph (`Pattern.eval_congr`).

The elements of a group name no graphs. The pattern of a selection puts each of its groups
into the graph of the selection, once (`Selection.StaysInGraph.pattern`).
-/

namespace DocGraph

open Rdf (Dataset Graph Iri Variable)
open Sparql (Aggregate Context Expr Pattern Solution Solutions Triple solutionsOf)

namespace Sparql

mutual

/-- Whether the patterns that an expression asks for stay in a graph. -/
def Expr.StaysIn (g : Option Iri) (above : List Iri) : Expr → Prop
  | .iri _ => True
  | .literal _ => True
  | .var _ => True
  | .relation _ a b => a.StaysIn g above ∧ b.StaysIn g above
  | .and a b => a.StaysIn g above ∧ b.StaysIn g above
  | .not e => e.StaysIn g above
  | .oneOf e choices => e.StaysIn g above ∧ Expr.AllStayIn g above choices
  | .call _ args => Expr.AllStayIn g above args
  | .coalesce args => Expr.AllStayIn g above args
  | .bound _ => True
  | .hasMatch p => p.StaysIn g above

/-- Whether the patterns that several expressions ask for stay in a graph. -/
def Expr.AllStayIn (g : Option Iri) (above : List Iri) : List Expr → Prop
  | [] => True
  | e :: rest => e.StaysIn g above ∧ Expr.AllStayIn g above rest

/-- Whether the patterns that an aggregate asks for stay in a graph. -/
def Aggregate.StaysIn (g : Option Iri) (above : List Iri) : Aggregate → Prop
  | .countAll _ => True
  | .reduce _ e _ => e.StaysIn g above

/-- Whether the patterns that several aggregates ask for stay in a graph. -/
def Aggregate.AllStayIn (g : Option Iri) (above : List Iri) : List (Variable × Aggregate) → Prop
  | [] => True
  | (_, a) :: rest => a.StaysIn g above ∧ Aggregate.AllStayIn g above rest

/-- Whether a pattern stays in a graph, where `above` are the names of the `GRAPH` nodes that it
is under, the innermost first. What matches statements is under one with the name of the graph
and under no other; for the default graph there is no such node. -/
def Pattern.StaysIn (g : Option Iri) (above : List Iri) : Pattern → Prop
  | .bgp ts => ts = [] ∨ above = g.toList
  | .inverse _ _ _ => above = g.toList
  | .join l r => l.StaysIn g above ∧ r.StaysIn g above
  | .leftJoin l r => l.StaysIn g above ∧ r.StaysIn g above
  | .filter e p => e.StaysIn g above ∧ p.StaysIn g above
  | .union l r => l.StaysIn g above ∧ r.StaysIn g above
  | .graph name p => g ≠ none ∧ p.StaysIn g (name :: above)
  | .extend p _ e => p.StaysIn g above ∧ e.StaysIn g above
  | .group p _ aggregates => p.StaysIn g above ∧ Aggregate.AllStayIn g above aggregates
  | .orderBy p _ => p.StaysIn g above
  | .project p _ => p.StaysIn g above
  | .distinct p => p.StaysIn g above
  | .slice p _ _ => p.StaysIn g above

end

variable {g : Option Iri} {above : List Iri}

/-! ## What does not name a graph -/

mutual

theorem Expr.IsPatternFree.staysIn : ∀ {e : Expr}, e.IsPatternFree → e.StaysIn g above
  | .iri _, _ | .literal _, _ | .var _, _ | .bound _, _ => by
    rw [Expr.StaysIn]
    trivial
  | .relation _ _ _, h | .and _ _, h => by
    rw [Expr.IsPatternFree] at h
    rw [Expr.StaysIn]
    exact ⟨h.1.staysIn, h.2.staysIn⟩
  | .not _, h => by
    rw [Expr.IsPatternFree] at h
    rw [Expr.StaysIn]
    exact h.staysIn
  | .oneOf _ _, h => by
    rw [Expr.IsPatternFree] at h
    rw [Expr.StaysIn]
    exact ⟨h.1.staysIn, h.2.allStayIn⟩
  | .call _ _, h | .coalesce _, h => by
    rw [Expr.IsPatternFree] at h
    rw [Expr.StaysIn]
    exact h.allStayIn
  | .hasMatch _, h => by
    rw [Expr.IsPatternFree] at h
    exact h.elim

theorem Expr.ArePatternFree.allStayIn : ∀ {es : List Expr}, Expr.ArePatternFree es →
    Expr.AllStayIn g above es
  | [], _ => by
    rw [Expr.AllStayIn]
    trivial
  | _ :: _, h => by
    rw [Expr.ArePatternFree] at h
    rw [Expr.AllStayIn]
    exact ⟨h.1.staysIn, h.2.allStayIn⟩

end

theorem Aggregate.IsPatternFree.staysIn {a : Aggregate} (h : a.IsPatternFree) :
    a.StaysIn g above := by
  cases a with
  | countAll distinct =>
    rw [Aggregate.StaysIn]
    trivial
  | reduce r e distinct =>
    rw [Aggregate.StaysIn]
    exact Expr.IsPatternFree.staysIn h

theorem Aggregate.allStayIn_of_forall {aggregates : List (Variable × Aggregate)}
    (h : ∀ v a, (v, a) ∈ aggregates → a.IsPatternFree) : AllStayIn g above aggregates := by
  induction aggregates with
  | nil =>
    rw [AllStayIn]
    trivial
  | cons e rest ih =>
    rw [AllStayIn]
    exact ⟨(h _ _ List.mem_cons_self).staysIn,
      ih fun v a hmem => h v a (List.mem_cons_of_mem _ hmem)⟩

/-! ## Solutions -/

/-- The context over other quads. -/
def Context.over (c : Context) (d : Dataset) : Context :=
  { c with data := d }

variable {d : Dataset}

theorem Triple.solutions_over {c : Context} (h : d.graph c.graph = c.data.graph c.graph)
    (t : Triple) : t.solutions (c.over d) = t.solutions c :=
  congrArg (fun statements : Graph => statements.val.filterMap (t.match? c .empty)) h

theorem solutionsOf_over {c : Context} (h : d.graph c.graph = c.data.graph c.graph)
    (ts : List Triple) : solutionsOf (c.over d) ts = solutionsOf c ts := by
  induction ts with
  | nil => rfl
  | cons t ts ih => rw [solutionsOf, solutionsOf, t.solutions_over h, ih]

/-- Where statements are matched, the active graph is the one that the pattern stays in. -/
theorem graph_eq_of_above {c : Context} (hgraph : c.graph = above.head?) (h : above = g.toList) :
    c.graph = g := by
  rw [hgraph, h]
  cases g <;> rfl

mutual

/-- The values of an expression depend on no other graph. -/
theorem Expr.eval_congr : ∀ (e : Expr) (above : List Iri) (c : Context), e.StaysIn g above →
    c.graph = above.head? → d.graph g = c.data.graph g → e.eval (c.over d) = e.eval c
  | .iri _, _, _, _, _, _ | .literal _, _, _, _, _, _ | .var _, _, _, _, _, _
  | .bound _, _, _, _, _, _ => rfl
  | .relation _ a b, above, c, h, hgraph, hdata => by
    rw [Expr.StaysIn] at h
    funext μ
    rw [Expr.eval, Expr.eval, Expr.eval_congr a above c h.1 hgraph hdata,
      Expr.eval_congr b above c h.2 hgraph hdata]
    rfl
  | .and a b, above, c, h, hgraph, hdata => by
    rw [Expr.StaysIn] at h
    funext μ
    rw [Expr.eval, Expr.eval, Expr.eval_congr a above c h.1 hgraph hdata,
      Expr.eval_congr b above c h.2 hgraph hdata]
    rfl
  | .not e, above, c, h, hgraph, hdata => by
    rw [Expr.StaysIn] at h
    funext μ
    rw [Expr.eval, Expr.eval, Expr.eval_congr e above c h hgraph hdata]
    rfl
  | .oneOf e choices, above, c, h, hgraph, hdata => by
    rw [Expr.StaysIn] at h
    funext μ
    rw [Expr.eval, Expr.eval, Expr.eval_congr e above c h.1 hgraph hdata,
      Expr.evalAll_congr choices above c h.2 hgraph hdata]
    rfl
  | .call _ args, above, c, h, hgraph, hdata => by
    rw [Expr.StaysIn] at h
    funext μ
    rw [Expr.eval, Expr.eval, Expr.evalAll_congr args above c h hgraph hdata]
    rfl
  | .coalesce args, above, c, h, hgraph, hdata => by
    rw [Expr.StaysIn] at h
    funext μ
    rw [Expr.eval, Expr.eval, Expr.evalAll_congr args above c h hgraph hdata]
  | .hasMatch p, above, c, h, hgraph, hdata => by
    rw [Expr.StaysIn] at h
    funext μ
    have hmatch : p.eval ((c.over d).substituted μ) = p.eval (c.substituted μ) :=
      Pattern.eval_congr p above (c.substituted μ) h hgraph hdata
    rw [Expr.eval, Expr.eval, hmatch]

theorem Expr.evalAll_congr : ∀ (es : List Expr) (above : List Iri) (c : Context),
    Expr.AllStayIn g above es → c.graph = above.head? → d.graph g = c.data.graph g →
      Expr.evalAll es (c.over d) = Expr.evalAll es c
  | [], _, _, _, _, _ => rfl
  | e :: rest, above, c, h, hgraph, hdata => by
    rw [Expr.AllStayIn] at h
    funext μ
    rw [Expr.evalAll, Expr.evalAll, Expr.eval_congr e above c h.1 hgraph hdata,
      Expr.evalAll_congr rest above c h.2 hgraph hdata]

theorem Aggregate.eval_congr : ∀ (a : Aggregate) (above : List Iri) (c : Context),
    a.StaysIn g above → c.graph = above.head? → d.graph g = c.data.graph g →
      a.eval (c.over d) = a.eval c
  | .countAll _, _, _, _, _, _ => rfl
  | .reduce _ e _, above, c, h, hgraph, hdata => by
    rw [Aggregate.StaysIn] at h
    funext column key ss
    rw [Aggregate.eval, Aggregate.eval, Expr.eval_congr e above c h hgraph hdata]
    rfl

theorem Aggregate.bindAll_congr : ∀ (aggregates : List (Variable × Aggregate)) (above : List Iri)
    (c : Context), Aggregate.AllStayIn g above aggregates → c.graph = above.head? →
      d.graph g = c.data.graph g →
        Aggregate.bindAll aggregates (c.over d) = Aggregate.bindAll aggregates c
  | [], _, _, _, _, _ => rfl
  | (_, a) :: rest, above, c, h, hgraph, hdata => by
    rw [Aggregate.AllStayIn] at h
    funext key ss
    rw [Aggregate.bindAll, Aggregate.bindAll, Aggregate.eval_congr a above c h.1 hgraph hdata,
      Aggregate.bindAll_congr rest above c h.2 hgraph hdata]

/-- The solutions of a pattern that stays in a graph depend on no other graph. -/
theorem Pattern.eval_congr : ∀ (p : Pattern) (above : List Iri) (c : Context), p.StaysIn g above →
    c.graph = above.head? → d.graph g = c.data.graph g → p.eval (c.over d) = p.eval c
  | .bgp ts, above, c, h, hgraph, hdata => by
    rw [Pattern.StaysIn] at h
    rw [Pattern.eval, Pattern.eval]
    rcases h with rfl | h
    · rfl
    · exact solutionsOf_over (graph_eq_of_above hgraph h ▸ hdata) ts
  | .inverse s i o, above, c, h, hgraph, hdata => by
    rw [Pattern.StaysIn] at h
    rw [Pattern.eval, Pattern.eval]
    exact Triple.solutions_over (graph_eq_of_above hgraph h ▸ hdata) _
  | .join l r, above, c, h, hgraph, hdata => by
    rw [Pattern.StaysIn] at h
    rw [Pattern.eval, Pattern.eval, Pattern.eval_congr l above c h.1 hgraph hdata,
      Pattern.eval_congr r above c h.2 hgraph hdata]
  | .leftJoin l r, above, c, h, hgraph, hdata => by
    rw [Pattern.StaysIn] at h
    rw [Pattern.eval, Pattern.eval, Pattern.eval_congr l above c h.1 hgraph hdata,
      Pattern.eval_congr r above c h.2 hgraph hdata]
  | .filter e p, above, c, h, hgraph, hdata => by
    rw [Pattern.StaysIn] at h
    rw [Pattern.eval, Pattern.eval, Expr.eval_congr e above c h.1 hgraph hdata,
      Pattern.eval_congr p above c h.2 hgraph hdata]
    rfl
  | .union l r, above, c, h, hgraph, hdata => by
    rw [Pattern.StaysIn] at h
    rw [Pattern.eval, Pattern.eval, Pattern.eval_congr l above c h.1 hgraph hdata,
      Pattern.eval_congr r above c h.2 hgraph hdata]
  | .graph name p, above, c, h, hgraph, hdata => by
    rw [Pattern.StaysIn] at h
    rw [Pattern.eval, Pattern.eval]
    exact Pattern.eval_congr p (name :: above) (c.within name) h.2 rfl hdata
  | .extend p v e, above, c, h, hgraph, hdata => by
    rw [Pattern.StaysIn] at h
    rw [Pattern.eval, Pattern.eval, Pattern.eval_congr p above c h.1 hgraph hdata,
      Expr.eval_congr e above c h.2 hgraph hdata]
  | .group p keys aggregates, above, c, h, hgraph, hdata => by
    rw [Pattern.StaysIn] at h
    rw [Pattern.eval, Pattern.eval, Pattern.eval_congr p above c h.1 hgraph hdata,
      Aggregate.bindAll_congr aggregates above c h.2 hgraph hdata]
  | .orderBy p _, above, c, h, hgraph, hdata => by
    rw [Pattern.StaysIn] at h
    rw [Pattern.eval, Pattern.eval, Pattern.eval_congr p above c h hgraph hdata]
  | .project p _, above, c, h, hgraph, hdata => by
    rw [Pattern.StaysIn] at h
    rw [Pattern.eval, Pattern.eval, Pattern.eval_congr p above c h hgraph hdata]
  | .distinct p, above, c, h, hgraph, hdata => by
    rw [Pattern.StaysIn] at h
    rw [Pattern.eval, Pattern.eval, Pattern.eval_congr p above c h hgraph hdata]
  | .slice p _ _, above, c, h, hgraph, hdata => by
    rw [Pattern.StaysIn] at h
    simp only [Pattern.eval, Pattern.eval_congr p above c h hgraph hdata]
    rfl

end

/-! ## Joins and unions -/

theorem Pattern.staysIn_joined {p q : Pattern} (hp : p.StaysIn g above) (hq : q.StaysIn g above) :
    (p.joined q).StaysIn g above := by
  rcases joined_cases p q with ⟨-, h⟩ | ⟨-, h⟩ | ⟨ts, us, rfl, rfl, h⟩ | h <;> rw [h]
  · exact hp
  · exact hq
  · rw [StaysIn] at hp hq ⊢
    rcases hp with rfl | hp
    · exact hq
    · exact .inr hp
  · rw [StaysIn]
    exact ⟨hp, hq⟩

theorem Pattern.staysIn_empty : Pattern.empty.StaysIn g above := by
  rw [Pattern.empty, StaysIn]
  exact .inl rfl

theorem Expr.staysIn_conjunction? {es : List Expr} {e : Expr} (h : conjunction? es = some e)
    (hes : ∀ e ∈ es, e.StaysIn g above) : e.StaysIn g above := by
  refine conjunction?_induction (fun e f he hf => ?_) h hes
  rw [StaysIn]
  exact ⟨he, hf⟩

end Sparql

variable {g : Option Iri} {es fs : List Element}

theorem staysIn_unionOf {above : List Iri} {ps : List Pattern} (h : ∀ p ∈ ps, p.StaysIn g above) :
    (unionOf ps).StaysIn g above := by
  cases ps with
  | nil =>
    rw [unionOf, Pattern.StaysIn, Expr.StaysIn]
    exact ⟨trivial, Pattern.staysIn_empty⟩
  | cons p ps =>
    rw [List.forall_mem_cons] at h
    refine List.foldlRecOn ps .union h.1 fun p hp q hq => ?_
    rw [Pattern.StaysIn]
    exact ⟨hp, h.2 q hq⟩

/-! ## Groups -/

mutual

/-- Whether the patterns that an element asks for stay in a graph, in a group that is inside of
it. -/
def Element.StaysIn (g : Option Iri) : Element → Prop
  | .triple _ => True
  | .inverse _ _ _ => True
  | .filter e => e.StaysIn g g.toList
  | .optional es => ElementsStayIn g es
  | .union branches => BranchesStayIn g branches
  | .bind _ e => e.StaysIn g g.toList

/-- Whether the patterns that the elements of a group ask for stay in a graph. -/
def ElementsStayIn (g : Option Iri) : List Element → Prop
  | [] => True
  | e :: rest => e.StaysIn g ∧ ElementsStayIn g rest

/-- Whether the patterns that several groups ask for stay in a graph. -/
def BranchesStayIn (g : Option Iri) : List (List Element) → Prop
  | [] => True
  | es :: rest => ElementsStayIn g es ∧ BranchesStayIn g rest

end

theorem elementsStayIn_iff : ElementsStayIn g es ↔ ∀ e ∈ es, e.StaysIn g := by
  induction es with
  | nil => simp [ElementsStayIn]
  | cons e es ih => rw [ElementsStayIn, ih, List.forall_mem_cons]

theorem branchesStayIn_iff {branches : List (List Element)} :
    BranchesStayIn g branches ↔ ∀ es ∈ branches, ElementsStayIn g es := by
  induction branches with
  | nil => simp [BranchesStayIn]
  | cons es rest ih => rw [BranchesStayIn, ih, List.forall_mem_cons]

theorem elementsStayIn_append (hes : ElementsStayIn g es) (hfs : ElementsStayIn g fs) :
    ElementsStayIn g (es ++ fs) := by
  rw [elementsStayIn_iff] at hes hfs ⊢
  exact List.forall_mem_append.mpr ⟨hes, hfs⟩

namespace GroupState

/-- Whether a group that is being read stays in a graph that it is inside of. -/
structure StaysIn (g : Option Iri) (st : GroupState) : Prop where
  pattern : st.pattern.StaysIn g g.toList
  filters : ∀ e ∈ st.filters, e.StaysIn g g.toList

theorem StaysIn.start : ({} : GroupState).StaysIn g :=
  ⟨Pattern.staysIn_empty, nofun⟩

theorem StaysIn.flush {st : GroupState} (h : st.StaysIn g) :
    st.flush.pattern.StaysIn g g.toList := by
  refine Pattern.staysIn_joined h.pattern ?_
  rw [Pattern.StaysIn]
  exact .inr rfl

theorem StaysIn.finish {st : GroupState} (h : st.StaysIn g) : st.finish.StaysIn g g.toList := by
  unfold GroupState.finish
  cases hfilters : Expr.conjunction? st.filters with
  | none => exact h.flush
  | some e =>
    dsimp only
    rw [Pattern.StaysIn]
    exact ⟨Expr.staysIn_conjunction? hfilters h.filters, h.flush⟩

end GroupState

mutual

theorem staysIn_addTo {st : GroupState} (hst : st.StaysIn g) :
    ∀ e : Element, e.StaysIn g → (e.addTo st).StaysIn g
  | .triple t, _ => by
    rw [Element.addTo]
    exact ⟨hst.pattern, hst.filters⟩
  | .inverse s p o, _ => by
    rw [Element.addTo]
    refine ⟨Pattern.staysIn_joined (q := .inverse s p o) hst.flush ?_, hst.filters⟩
    rw [Pattern.StaysIn]
  | .filter e, he => by
    rw [Element.StaysIn] at he
    rw [Element.addTo]
    exact ⟨hst.flush, List.forall_mem_append.mpr
      ⟨hst.filters, List.forall_mem_singleton.mpr he⟩⟩
  | .optional es, he => by
    rw [Element.StaysIn] at he
    rw [Element.addTo]
    refine ⟨?_, hst.filters⟩
    rw [Pattern.StaysIn]
    exact ⟨hst.flush, (staysIn_addAll es {} .start he).finish⟩
  | .union branches, he => by
    rw [Element.StaysIn] at he
    rw [Element.addTo]
    exact ⟨Pattern.staysIn_joined hst.flush (staysIn_unionOf (staysIn_branchPatterns branches he)),
      hst.filters⟩
  | .bind v e, he => by
    rw [Element.StaysIn] at he
    rw [Element.addTo]
    refine ⟨?_, hst.filters⟩
    rw [Pattern.StaysIn]
    exact ⟨hst.flush, he⟩

theorem staysIn_addAll : ∀ (es : List Element) (st : GroupState), st.StaysIn g →
    ElementsStayIn g es → (addAll st es).StaysIn g
  | [], _, hst, _ => hst
  | e :: es, st, hst, h => by
    rw [ElementsStayIn] at h
    exact staysIn_addAll es (e.addTo st) (staysIn_addTo hst e h.1) h.2

theorem staysIn_branchPatterns : ∀ branches : List (List Element), BranchesStayIn g branches →
    ∀ p ∈ branchPatterns branches, p.StaysIn g g.toList
  | [], _ => nofun
  | es :: rest, h => by
    rw [BranchesStayIn] at h
    rw [branchPatterns, List.forall_mem_cons]
    exact ⟨(staysIn_addAll es {} .start h.1).finish, staysIn_branchPatterns rest h.2⟩

end

/-- The pattern of a group that is inside of a graph stays in it. -/
theorem staysIn_groupPattern (h : ElementsStayIn g es) :
    (groupPattern es).StaysIn g g.toList :=
  (staysIn_addAll es {} .start h).finish

/-! ## Selections -/

namespace Selection

variable {s : Selection}

/-- Whether the patterns that the parts of a selection ask for stay in its graph. -/
structure StaysInGraph (s : Selection) : Prop where
  elements : ElementsStayIn s.graph s.elements
  counts : ∀ v a, (v, a) ∈ s.columns.filterMap Column.ofDocuments? → a.IsPatternFree
  reduced : ∀ r ∈ s.columns.filterMap Column.reduced?,
    r.aggregate.IsPatternFree ∧ ElementsStayIn s.graph r.values

/-- A group is put into the graph of the selection, once. -/
theorem staysIn_inGraph (h : ElementsStayIn s.graph es) :
    (s.inGraph (groupPattern es)).StaysIn s.graph [] := by
  have hgroup := staysIn_groupPattern h
  unfold inGraph
  cases hgraph : s.graph with
  | none =>
    rw [hgraph] at hgroup
    exact hgroup
  | some g =>
    rw [hgraph] at hgroup
    dsimp only
    rw [Pattern.StaysIn]
    exact ⟨Option.some_ne_none g, hgroup⟩

theorem staysIn_around {p : Pattern} (hp : p.StaysIn g []) (w : Wrapping) :
    (w.around p).StaysIn g [] := by
  rw [Wrapping.around, Pattern.StaysIn]
  refine ⟨hp, Expr.IsPatternFree.staysIn ?_⟩
  simp only [Expr.IsPatternFree, Expr.ArePatternFree, Expr.string, and_self]

namespace StaysInGraph

variable (h : s.StaysInGraph)
include h

theorem documents : s.documents.StaysIn s.graph [] :=
  staysIn_inGraph h.elements

theorem reduction {r : Reduced} (hr : r ∈ s.columns.filterMap Column.reduced?) :
    (s.reduction r).StaysIn s.graph [] := by
  obtain ⟨haggregate, hvalues⟩ := h.reduced r hr
  have hpairs : s.pairs.StaysIn s.graph [] := by
    rw [Selection.pairs, Pattern.StaysIn, Pattern.StaysIn]
    exact h.documents
  rw [reduction_eq, Pattern.StaysIn]
  refine ⟨?_, Aggregate.allStayIn_of_forall fun v a hmem => ?_⟩
  · split
    · exact hpairs
    · rw [Pattern.StaysIn]
      exact ⟨hpairs, staysIn_inGraph hvalues⟩
  · rwa [(Prod.mk.inj (List.mem_singleton.mp hmem)).2]

theorem groups : s.groups.StaysIn s.graph [] := by
  unfold Selection.groups
  dsimp only
  split
  · exact Pattern.staysIn_empty
  · rw [Pattern.StaysIn]
    exact ⟨h.documents, Aggregate.allStayIn_of_forall h.counts⟩

theorem grouped : s.grouped.StaysIn s.graph [] := by
  have hjoined := List.foldlRecOn (motive := fun p : Pattern => p.StaysIn s.graph [])
    (s.columns.filterMap Column.reduced?) (fun p r => p.joined (s.reduction r)) h.groups
    fun p hp r hr => Pattern.staysIn_joined hp (h.reduction hr)
  exact List.foldlRecOn _ Wrapping.around hjoined fun p hp w _ => staysIn_around hp w

theorem ordered : s.ordered.StaysIn s.graph [] := by
  have hrows : (if s.isGrouped then s.grouped else s.documents).StaysIn s.graph [] := by
    split
    · exact h.grouped
    · exact h.documents
  unfold Selection.ordered
  dsimp only
  split
  · exact hrows
  · rwa [Pattern.StaysIn]

/-- The pattern of a selection stays in its graph. -/
theorem pattern : s.pattern.StaysIn s.graph [] := by
  have hprojected : (Pattern.project s.ordered (s.columns.map Column.carrier)).StaysIn
      s.graph [] := by
    rw [Pattern.StaysIn]
    exact h.ordered
  unfold Selection.pattern
  dsimp only
  have hdistinct : (if s.distinct then
      Pattern.distinct (.project s.ordered (s.columns.map Column.carrier))
      else .project s.ordered (s.columns.map Column.carrier)).StaysIn s.graph [] := by
    split
    · rwa [Pattern.StaysIn]
    · exact hprojected
  split
  · rwa [Pattern.StaysIn]
  · exact hdistinct

end StaysInGraph

end Selection

end DocGraph
