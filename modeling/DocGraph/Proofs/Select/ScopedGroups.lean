import DocGraph.Proofs.Select.Scope

/-!
# Groups in scope

In scope of the pattern of a group are the variables of its elements (`scope_groupPattern`).
It obeys the rules for variables if the elements do: what one of them assigns is bound by no
other one (`isScoped_groupPattern`).
-/

namespace DocGraph

open Rdf (Variable)
open Sparql (Expr Pattern Triple)

/-! ## Elements -/

mutual

/-- The variables that an element assigns values to. -/
def Element.assignments : Element → List Variable
  | .triple _ => []
  | .inverse _ _ _ => []
  | .filter _ => []
  | .optional es => elementAssignments es
  | .union branches => branchAssignments branches
  | .bind v _ => [v]

/-- The variables that elements assign values to. -/
def elementAssignments : List Element → List Variable
  | [] => []
  | e :: rest => e.assignments ++ elementAssignments rest

/-- The variables that groups assign values to. -/
def branchAssignments : List (List Element) → List Variable
  | [] => []
  | es :: rest => elementAssignments es ++ branchAssignments rest

end

mutual

/-- Whether the groups and the expressions of an element obey the rules. -/
def Element.IsScoped : Element → Prop
  | .triple _ => True
  | .inverse _ _ _ => True
  | .filter e => e.IsScoped
  | .optional es => AreScoped es
  | .union branches => BranchesAreScoped branches
  | .bind _ e => e.IsScoped

/-- Whether the elements of a group obey the rules: what one of them assigns is bound by no
other one. -/
def AreScoped : List Element → Prop
  | [] => True
  | e :: rest =>
    e.IsScoped ∧ AreScoped rest ∧ e.assignments.Disjoint (elementVariables rest) ∧
      e.variables.Disjoint (elementAssignments rest)

/-- Whether several groups obey the rules. -/
def BranchesAreScoped : List (List Element) → Prop
  | [] => True
  | es :: rest => AreScoped es ∧ BranchesAreScoped rest

end

theorem elementAssignments_append (es fs : List Element) :
    elementAssignments (es ++ fs) = elementAssignments es ++ elementAssignments fs := by
  induction es with
  | nil => rfl
  | cons e es ih =>
    rw [List.cons_append, elementAssignments, ih, elementAssignments, List.append_assoc]

/-- Two groups can be put side by side if neither binds what the other one assigns. -/
theorem areScoped_append {es fs : List Element} (hes : AreScoped es) (hfs : AreScoped fs)
    (h : (elementAssignments es).Disjoint (elementVariables fs))
    (h' : (elementVariables es).Disjoint (elementAssignments fs)) : AreScoped (es ++ fs) := by
  induction es with
  | nil => exact hfs
  | cons e es ih =>
    rw [AreScoped] at hes
    obtain ⟨he, hes, hassigned, hvariables⟩ := hes
    rw [elementAssignments, List.disjoint_append_left] at h
    rw [elementVariables, List.disjoint_append_left] at h'
    rw [List.cons_append, AreScoped, elementVariables_append, elementAssignments_append,
      List.disjoint_append_right, List.disjoint_append_right]
    exact ⟨he, ih hes h.2 h'.2, ⟨hassigned, h.1⟩, hvariables, h'.1⟩

/-! ## The pattern of a group -/

namespace GroupState

/-- The variables in scope of a group that is being read. -/
def scope (g : GroupState) : List Variable :=
  g.pattern.scope ++ g.triples.flatMap Triple.variables

/-- Whether a group that is being read obeys the rules. -/
structure IsScoped (g : GroupState) : Prop where
  pattern : g.pattern.IsScoped
  apart : g.pattern.assigned.Disjoint (g.triples.flatMap Triple.variables)
  filters : ∀ e ∈ g.filters, e.IsScoped

variable {g : GroupState}

theorem scope_flush (g : GroupState) : g.flush.pattern.scope = g.scope :=
  Pattern.scope_joined _ _

theorem assigned_flush (g : GroupState) : g.flush.pattern.assigned = g.pattern.assigned :=
  (Pattern.assigned_joined _ _).trans (List.append_nil _)

theorem IsScoped.flush (h : g.IsScoped) : g.flush.pattern.IsScoped := by
  refine Pattern.isScoped_joined h.pattern ?_ ⟨h.apart, List.disjoint_nil_right _⟩
  rw [Pattern.IsScoped]
  trivial

/-- A state without triples obeys the rules if its pattern and its filters do. -/
theorem IsScoped.of_triples (htriples : g.triples = []) (hpattern : g.pattern.IsScoped)
    (hfilters : ∀ e ∈ g.filters, e.IsScoped) : g.IsScoped := by
  refine ⟨hpattern, ?_, hfilters⟩
  rw [htriples]
  exact List.disjoint_nil_right _

theorem IsScoped.start : ({} : GroupState).IsScoped := by
  refine .of_triples rfl ?_ nofun
  rw [Pattern.empty, Pattern.IsScoped]
  trivial

theorem scope_finish (g : GroupState) : g.finish.scope = g.scope := by
  unfold finish
  cases Expr.conjunction? g.filters with
  | none => exact scope_flush g
  | some e => exact scope_flush g

theorem assigned_finish (g : GroupState) : g.finish.assigned = g.pattern.assigned := by
  unfold finish
  cases Expr.conjunction? g.filters with
  | none => exact assigned_flush g
  | some e => exact assigned_flush g

theorem IsScoped.finish (h : g.IsScoped) : g.finish.IsScoped := by
  unfold GroupState.finish
  cases hfilters : Expr.conjunction? g.filters with
  | none => exact h.flush
  | some e =>
    dsimp only
    rw [Pattern.IsScoped]
    exact ⟨Expr.isScoped_conjunction? hfilters h.filters, h.flush⟩

end GroupState

theorem unionOf_scope (ps : List Pattern) : (unionOf ps).scope = ps.flatMap Pattern.scope := by
  have hfold (ps : List Pattern) (p : Pattern) :
      (ps.foldl .union p).scope = p.scope ++ ps.flatMap Pattern.scope := by
    induction ps generalizing p with
    | nil => exact (List.append_nil _).symm
    | cons q ps ih => rw [List.foldl_cons, ih, List.flatMap_cons, Pattern.scope, List.append_assoc]
  cases ps with
  | nil => rfl
  | cons p ps => exact hfold ps p

theorem unionOf_assigned (ps : List Pattern) :
    (unionOf ps).assigned = ps.flatMap Pattern.assigned := by
  have hfold (ps : List Pattern) (p : Pattern) :
      (ps.foldl .union p).assigned = p.assigned ++ ps.flatMap Pattern.assigned := by
    induction ps generalizing p with
    | nil => exact (List.append_nil _).symm
    | cons q ps ih =>
      rw [List.foldl_cons, ih, List.flatMap_cons, Pattern.assigned, List.append_assoc]
  cases ps with
  | nil => rfl
  | cons p ps => exact hfold ps p

theorem isScoped_unionOf {ps : List Pattern} (h : ∀ p ∈ ps, p.IsScoped) :
    (unionOf ps).IsScoped := by
  cases ps with
  | nil =>
    rw [unionOf, Pattern.IsScoped, Expr.IsScoped, Pattern.empty, Pattern.IsScoped]
    exact ⟨trivial, trivial⟩
  | cons p ps =>
    rw [List.forall_mem_cons] at h
    refine List.foldlRecOn ps .union h.1 fun p hp q hq => ?_
    rw [Pattern.IsScoped]
    exact ⟨hp, h.2 q hq⟩

mutual

/-- One more element adds its variables to the scope of a state. -/
theorem scope_addTo (g : GroupState) : ∀ e : Element, (e.addTo g).scope = g.scope ++ e.variables
  | .triple t => by
    rw [Element.addTo, GroupState.scope, GroupState.scope, List.flatMap_append, List.append_assoc,
      List.flatMap_singleton, Element.variables]
  | .inverse s p o => by
    rw [Element.addTo, GroupState.scope, Pattern.scope_joined, GroupState.scope_flush]
    exact List.append_nil _
  | .filter e => by
    rw [Element.addTo, GroupState.scope, GroupState.scope_flush]
    rfl
  | .optional es => by
    rw [Element.addTo, GroupState.scope, Pattern.scope, GroupState.scope_flush,
      GroupState.scope_finish, scope_addAll es]
    exact List.append_nil _
  | .union branches => by
    rw [Element.addTo, GroupState.scope, Pattern.scope_joined, GroupState.scope_flush,
      unionOf_scope, scope_branchPatterns branches]
    exact List.append_nil _
  | .bind v e => by
    rw [Element.addTo, GroupState.scope, Pattern.scope, GroupState.scope_flush]
    exact List.append_nil _

theorem scope_addAll : ∀ (es : List Element) (g : GroupState),
    (addAll g es).scope = g.scope ++ elementVariables es
  | [], g => (List.append_nil _).symm
  | e :: es, g => by
    rw [addAll, scope_addAll es, scope_addTo g e, elementVariables, List.append_assoc]

theorem scope_branchPatterns : ∀ branches : List (List Element),
    (branchPatterns branches).flatMap Pattern.scope = branchVariables branches
  | [] => rfl
  | es :: rest => by
    rw [branchPatterns, List.flatMap_cons, GroupState.scope_finish, scope_addAll es,
      scope_branchPatterns rest, branchVariables]
    rfl

end

theorem scope_addAll_finish (es : List Element) :
    (addAll {} es).finish.scope = elementVariables es := by
  rw [GroupState.scope_finish, scope_addAll]
  rfl

mutual

/-- One more element adds what it assigns to what a state assigns. -/
theorem assigned_addTo (g : GroupState) :
    ∀ e : Element, (e.addTo g).pattern.assigned = g.pattern.assigned ++ e.assignments
  | .triple t => (List.append_nil _).symm
  | .inverse s p o => by
    rw [Element.addTo, Pattern.assigned_joined, GroupState.assigned_flush]
    rfl
  | .filter e => by
    rw [Element.addTo, GroupState.assigned_flush]
    exact (List.append_nil _).symm
  | .optional es => by
    rw [Element.addTo, Pattern.assigned, GroupState.assigned_flush, GroupState.assigned_finish,
      assigned_addAll es, Element.assignments]
    rfl
  | .union branches => by
    rw [Element.addTo, Pattern.assigned_joined, GroupState.assigned_flush, unionOf_assigned,
      assigned_branchPatterns branches, Element.assignments]
  | .bind v e => by
    rw [Element.addTo, Pattern.assigned, GroupState.assigned_flush, Element.assignments]

theorem assigned_addAll : ∀ (es : List Element) (g : GroupState),
    (addAll g es).pattern.assigned = g.pattern.assigned ++ elementAssignments es
  | [], g => (List.append_nil _).symm
  | e :: es, g => by
    rw [addAll, assigned_addAll es, assigned_addTo g e, elementAssignments, List.append_assoc]

theorem assigned_branchPatterns : ∀ branches : List (List Element),
    (branchPatterns branches).flatMap Pattern.assigned = branchAssignments branches
  | [] => rfl
  | es :: rest => by
    rw [branchPatterns, List.flatMap_cons, GroupState.assigned_finish, assigned_addAll es,
      assigned_branchPatterns rest, branchAssignments]
    rfl

end

theorem assigned_addAll_finish (es : List Element) :
    (addAll {} es).finish.assigned = elementAssignments es := by
  rw [GroupState.assigned_finish, assigned_addAll]
  rfl

/-- The variables of the elements of a group are in scope of its pattern. -/
theorem scope_groupPattern (es : List Element) : (groupPattern es).scope = elementVariables es :=
  scope_addAll_finish es

theorem assigned_groupPattern (es : List Element) :
    (groupPattern es).assigned = elementAssignments es :=
  assigned_addAll_finish es

mutual

/-- One more element keeps to the rules if it binds nothing that the state assigns and
assigns nothing that is in scope. -/
theorem isScoped_addTo {g : GroupState} (hg : g.IsScoped) : ∀ e : Element, e.IsScoped →
    g.pattern.assigned.Disjoint e.variables → g.scope.Disjoint e.assignments → (e.addTo g).IsScoped
  | .triple t, _, hvariables, _ => by
    rw [Element.addTo]
    refine ⟨hg.pattern, ?_, hg.filters⟩
    rw [List.flatMap_append, List.disjoint_append_right, List.flatMap_singleton]
    exact ⟨hg.apart, hvariables⟩
  | .inverse s p o, _, hvariables, _ => by
    rw [Element.addTo]
    refine .of_triples rfl (Pattern.isScoped_joined (q := .inverse s p o) hg.flush ?_
      ⟨?_, List.disjoint_nil_right _⟩) hg.filters
    · rw [Pattern.IsScoped]
      trivial
    · rwa [GroupState.assigned_flush]
  | .filter e, he, _, _ => by
    rw [Element.addTo]
    refine .of_triples rfl hg.flush fun f hf => ?_
    rcases List.mem_append.mp hf with hf | hf
    · exact hg.filters f hf
    · rwa [List.mem_singleton.mp hf]
  | .optional es, he, hvariables, hassigned => by
    rw [Element.addTo]
    refine .of_triples rfl ?_ hg.filters
    rw [Pattern.IsScoped]
    refine ⟨hg.flush, (isScoped_addAll es {} .start he (List.disjoint_nil_left _)
      (List.disjoint_nil_left _)).finish, ⟨?_, ?_⟩⟩
    · rwa [GroupState.assigned_flush, scope_addAll_finish]
    · rwa [GroupState.scope_flush, assigned_addAll_finish]
  | .union branches, he, hvariables, hassigned => by
    rw [Element.addTo]
    refine .of_triples rfl (Pattern.isScoped_joined hg.flush
      (isScoped_unionOf (isScoped_branchPatterns branches he)) ⟨?_, ?_⟩) hg.filters
    · rwa [GroupState.assigned_flush, unionOf_scope, scope_branchPatterns]
    · rwa [GroupState.scope_flush, unionOf_assigned, assigned_branchPatterns]
  | .bind v e, he, _, hassigned => by
    rw [Element.addTo]
    refine .of_triples rfl ?_ hg.filters
    rw [Pattern.IsScoped, GroupState.scope_flush]
    exact ⟨hg.flush, he, fun hv => hassigned hv (List.mem_singleton_self v)⟩

theorem isScoped_addAll : ∀ (es : List Element) (g : GroupState), g.IsScoped → AreScoped es →
    g.pattern.assigned.Disjoint (elementVariables es) → g.scope.Disjoint (elementAssignments es) →
      (addAll g es).IsScoped
  | [], _, hg, _, _, _ => hg
  | e :: es, g, hg, hes, hvariables, hassigned => by
    rw [AreScoped] at hes
    obtain ⟨he, hes, hhere, hthere⟩ := hes
    rw [elementVariables, List.disjoint_append_right] at hvariables
    rw [elementAssignments, List.disjoint_append_right] at hassigned
    have hadded := isScoped_addTo hg e he hvariables.1 hassigned.1
    refine isScoped_addAll es (e.addTo g) hadded hes ?_ ?_
    · rw [assigned_addTo, List.disjoint_append_left]
      exact ⟨hvariables.2, hhere⟩
    · rw [scope_addTo, List.disjoint_append_left]
      exact ⟨hassigned.2, hthere⟩

theorem isScoped_branchPatterns : ∀ branches : List (List Element), BranchesAreScoped branches →
    ∀ p ∈ branchPatterns branches, p.IsScoped
  | [], _ => nofun
  | es :: rest, h => by
    rw [BranchesAreScoped] at h
    rw [branchPatterns, List.forall_mem_cons]
    exact ⟨(isScoped_addAll es {} .start h.1 (List.disjoint_nil_left _)
      (List.disjoint_nil_left _)).finish, isScoped_branchPatterns rest h.2⟩

end

/-- The pattern of a group obeys the rules if its elements do. -/
theorem isScoped_groupPattern {es : List Element} (h : AreScoped es) :
    (groupPattern es).IsScoped :=
  (isScoped_addAll es {} .start h (List.disjoint_nil_left _) (List.disjoint_nil_left _)).finish

end DocGraph
