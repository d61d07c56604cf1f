import DocGraph.Proofs.Compile.Documents
import DocGraph.Proofs.Select.ScopedRows

/-!
# Filters in scope

The elements of a filter only ask something of the document (`FilterScope.asks_compile`):
they assign nothing, and bind the document and variables of their own only, which are no
columns (`Asks.isQuestion`).
-/

namespace DocGraph

open Rdf (Term Variable)
open Sparql (Expr Node)

variable {s : Schema} {es fs : List Element} {v : Variable}

/-! ## Elements that ask -/

/-- Whether elements only ask something of the document: they assign nothing, and bind no
column. -/
structure IsQuestion (es : List Element) : Prop where
  obeys : ∀ e ∈ es, e.IsScoped
  unassigned : elementAssignments es = []
  internal : ∀ v ∈ elementVariables es, IsInternal v

/-- Elements that assign nothing obey the rules if each of them does. -/
theorem areScoped_of_unassigned (hscoped : ∀ e ∈ es, e.IsScoped)
    (hunassigned : elementAssignments es = []) : AreScoped es := by
  induction es with
  | nil =>
    rw [AreScoped]
    trivial
  | cons e es ih =>
    rw [List.forall_mem_cons] at hscoped
    rw [elementAssignments, List.append_eq_nil_iff] at hunassigned
    rw [AreScoped, hunassigned.1, hunassigned.2]
    exact ⟨hscoped.1, ih hscoped.2 hunassigned.2, List.disjoint_nil_left _,
      List.disjoint_nil_right _⟩

theorem Element.IsTriple.isScoped {e : Element} (h : e.IsTriple) : e.IsScoped := by
  cases e with
  | triple | inverse =>
    rw [Element.IsScoped]
    trivial
  | _ => exact h.elim

theorem elementAssignments_eq_nil (h : ∀ e ∈ es, e.assignments = []) :
    elementAssignments es = [] := by
  induction es with
  | nil => rfl
  | cons e es ih =>
    rw [List.forall_mem_cons] at h
    rw [elementAssignments, h.1, ih h.2, List.append_nil]

theorem Element.IsTriple.assignments_eq_nil {e : Element} (h : e.IsTriple) :
    e.assignments = [] := by
  cases e with
  | triple | inverse => rfl
  | _ => exact h.elim

namespace IsQuestion

theorem areScoped (h : IsQuestion es) : AreScoped es :=
  areScoped_of_unassigned h.obeys h.unassigned

theorem nil : IsQuestion [] :=
  ⟨nofun, rfl, nofun⟩

theorem append (hes : IsQuestion es) (hfs : IsQuestion fs) : IsQuestion (es ++ fs) := by
  refine ⟨List.forall_mem_append.mpr ⟨hes.obeys, hfs.obeys⟩, ?_, fun v hv => ?_⟩
  · rw [elementAssignments_append, hes.unassigned, hfs.unassigned, List.append_nil]
  · rw [elementVariables_append, List.mem_append] at hv
    exact hv.elim (hes.internal v) (hfs.internal v)

theorem ofTriples (h : ∀ e ∈ es, e.IsTriple) (hinternal : ∀ v ∈ elementVariables es, IsInternal v) :
    IsQuestion es :=
  ⟨fun e he => (h e he).isScoped, elementAssignments_eq_nil fun e he => (h e he).assignments_eq_nil,
    hinternal⟩

theorem filter {e : Expr} (h : e.IsScoped) : IsQuestion [.filter e] := by
  refine ⟨List.forall_mem_singleton.mpr ?_, rfl, nofun⟩
  rwa [Element.IsScoped]

/-- To ask whether a match of such elements exists is to ask again. -/
theorem existence (negated : Bool) (h : IsQuestion es) :
    IsQuestion (FilterScope.existence negated es) := by
  have hmatch : (Expr.hasMatch (groupPattern es)).IsScoped := by
    rw [Expr.IsScoped]
    exact isScoped_groupPattern h.areScoped
  refine filter ?_
  split
  · rwa [Expr.IsScoped]
  · exact hmatch

theorem optional (h : IsQuestion es) : IsQuestion [.optional es] := by
  refine ⟨List.forall_mem_singleton.mpr ?_, ?_, fun v hv => ?_⟩
  · rw [Element.IsScoped]
    exact h.areScoped
  · rw [elementAssignments, Element.assignments, h.unassigned]
    rfl
  · rw [elementVariables, List.mem_append] at hv
    exact hv.elim (h.internal v) nofun

theorem union {branches : List (List Element)} (h : ∀ es ∈ branches, IsQuestion es) :
    IsQuestion [.union branches] := by
  have hparts : BranchesAreScoped branches ∧ branchAssignments branches = [] ∧
      ∀ v ∈ branchVariables branches, IsInternal v := by
    induction branches with
    | nil =>
      rw [BranchesAreScoped]
      exact ⟨trivial, rfl, nofun⟩
    | cons es branches ih =>
      rw [List.forall_mem_cons] at h
      obtain ⟨hscoped, hunassigned, hinternal⟩ := ih h.2
      rw [BranchesAreScoped, branchAssignments, branchVariables, h.1.unassigned, hunassigned]
      exact ⟨⟨h.1.areScoped, hscoped⟩, rfl, fun v hv =>
        (List.mem_append.mp hv).elim (h.1.internal v) (hinternal v)⟩
  refine ⟨List.forall_mem_singleton.mpr ?_, ?_, fun v hv => ?_⟩
  · rw [Element.IsScoped]
    exact hparts.1
  · rw [elementAssignments, Element.assignments, hparts.2.1]
    rfl
  · rw [elementVariables, List.mem_append] at hv
    exact hv.elim (hparts.2.2 v) nofun

end IsQuestion

/-- Elements that ask something of the document: triples of variables that are no columns,
tests that ask for no pattern, and whether such elements have a match. -/
inductive Asks : List Element → Prop
  | nil : Asks []
  | append {es fs : List Element} (hes : Asks es) (hfs : Asks fs) : Asks (es ++ fs)
  | triples {es : List Element} (h : ∀ e ∈ es, e.IsTriple)
    (hinternal : ∀ v ∈ elementVariables es, IsInternal v) : Asks es
  | filter {e : Expr} (h : e.IsPatternFree) : Asks [.filter e]
  | existence {es : List Element} (negated : Bool) (h : Asks es) :
    Asks (FilterScope.existence negated es)
  | optional {es : List Element} (h : Asks es) : Asks [.optional es]
  | union {branches : List (List Element)} (h : ∀ es ∈ branches, Asks es) :
    Asks [.union branches]

namespace Asks

theorem flatten {ess : List (List Element)} (h : ∀ es ∈ ess, Asks es) : Asks ess.flatten := by
  induction ess with
  | nil => exact nil
  | cons es ess ih =>
    rw [List.forall_mem_cons] at h
    exact h.1.append (ih h.2)

theorem of_forall (h : ∀ e ∈ es, Asks [e]) : Asks es := by
  induction es with
  | nil => exact nil
  | cons e es ih =>
    rw [List.forall_mem_cons] at h
    exact h.1.append (ih h.2)

theorem isQuestion (h : Asks es) : IsQuestion es := by
  induction h with
  | nil => exact .nil
  | append _ _ hes hfs => exact hes.append hfs
  | triples h hinternal => exact .ofTriples h hinternal
  | filter h => exact .filter h.isScoped
  | existence negated _ h => exact h.existence negated
  | optional _ h => exact h.optional
  | union _ h => exact .union h

end Asks

open Sparql.Expr (arePatternFree_of_forall isPatternFree_ofNode isPatternFree_ofTerm
  isPatternFree_string)

/-! ## Chains -/

section Chains

variable {n : Nat} {segments : List String} {steps : List PathStep} {constant : Option Term}
  {subject : Node} {ch : Chain}

theorem asks_isRoot (t : Term) : Asks [isRoot t] := by
  refine .filter ?_
  rw [Expr.IsPatternFree, Expr.IsPatternFree]
  exact ⟨trivial, isPatternFree_ofTerm t⟩

theorem asks_chainFrom (hplain : Plain segments) {taken : Nat}
    (h : chainFrom s (.filter n) segments constant subject taken steps = .ok ch)
    (hlen : taken + steps.length ≤ segments.length)
    (hsubject : ∀ v ∈ subject.variables, IsInternal v) :
    Asks ch.elements ∧ ∀ v ∈ ch.terminal.variables, IsInternal v := by
  induction steps generalizing subject taken ch with
  | nil =>
    obtain rfl := Except.ok.inj h
    exact ⟨.nil, hsubject⟩
  | cons step rest ih =>
    rw [List.length_cons] at hlen
    have hhop {object : Node} {es : List Element} (hes : hop s subject step object = .ok es)
        (hobject : ∀ v ∈ object.variables, IsInternal v) : Asks es :=
      .triples (isTriple_hop hes) fun v hv =>
        (variables_hop hes v hv).elim (hsubject v) (hobject v)
    rcases chainFrom_cons h with ⟨t, here, -, -, hhere, rfl⟩ |
      ⟨w, here, further, -, hw, hhere, hfurther, rfl⟩
    · exact ⟨hhop hhere nofun, nofun⟩
    · have hinternal : ∀ v ∈ (Node.var w).variables, IsInternal v := fun v hv => by
        rw [List.mem_singleton.mp hv]
        exact (owns_variableAt rfl hplain (n := taken) (by omega) hw).1.isInternal
      obtain ⟨helements, hterminal⟩ := ih hfurther (by omega) hinternal
      exact ⟨(hhop hhere hinternal).append helements, hterminal⟩

/-- The elements of a chain are triples, or the test that the document itself is a term. -/
theorem asks_chain (hw : Walkable segments steps)
    (h : chain s (.filter n) segments steps constant = .ok ch) :
    Asks ch.elements ∧ ∀ v ∈ ch.terminal.variables, IsInternal v := by
  have hroot : ∀ v ∈ rootNode.variables, IsInternal v :=
    List.forall_mem_singleton.mpr isInternal_rootVariable
  rcases chain_cases h with ⟨t, -, -, rfl⟩ | ⟨-, h⟩
  · exact ⟨asks_isRoot t, nofun⟩
  · exact asks_chainFrom hw.plain h (length_hops_le hw) hroot

end Chains

namespace FilterScope

variable {f : FilterScope} {n : Nat} {cmp : Comparison}

theorem asks_allOf {segments : List String} {steps : List PathStep} (hw : Walkable segments steps)
    {values : List Term} (h : f.allOf (.filter n) segments steps values = .ok es) : Asks es := by
  rcases allOf_cases h with ⟨-, rfl⟩ | ⟨front, last, parent, ends, hfront, hparent, hends, rfl⟩
  · refine .of_forall fun e he => ?_
    obtain ⟨t, -, rfl⟩ := List.mem_map.mp he
    exact asks_isRoot t
  · obtain ⟨helements, hterminal⟩ := asks_chain (hw.front hfront).1 hparent
    refine helements.append (.flatten fun es hes => ?_)
    obtain ⟨t, -, hhop⟩ := exists_left_of_mem hends hes
    exact .triples (isTriple_hop hhop) fun v hv =>
      (variables_hop hhop v hv).elim (hterminal v) nofun

/-- A test asks for no pattern. -/
theorem isPatternFree_test {operator : Operator} {value e : Expr} (hvalue : value.IsPatternFree)
    (h : f.CompiledTest cmp value operator e) : e.IsPatternFree := by
  cases h with
  | eq | gt | gte | lt | lte =>
    rw [Expr.IsPatternFree]
    exact ⟨hvalue, isPatternFree_ofTerm _⟩
  | oneOf =>
    rw [Expr.IsPatternFree]
    refine ⟨hvalue, arePatternFree_of_forall fun e he => ?_⟩
    obtain ⟨t, -, rfl⟩ := List.mem_map.mp he
    exact isPatternFree_ofTerm t
  | regex | iregex | strlen =>
    simp only [Expr.string, Expr.IsPatternFree, Expr.ArePatternFree, hvalue, and_self]

/-- The elements of a comparison ask something of the document. -/
theorem asks_comparison (hs : f.schema.WellFormed) (h : f.comparison n cmp = .ok es) :
    Asks es := by
  obtain ⟨r, hr, h⟩ := comparison_eq_ok h
  have hw := walkable_of_resolve hs hr
  have hchain {constant : Option Term} {ch : Chain}
      (hch : chain f.schema (.filter n) cmp.path.segments r.steps constant = .ok ch) :=
    asks_chain hw hch
  cases h with
  | inlined _ _ hch => exact (hchain hch).1
  | all _ _ hinner =>
    have hinner := asks_allOf hw hinner
    split
    · exact hinner.existence true
    · exact hinner
  | itself =>
    split
    · refine .filter ?_
      rw [Expr.IsPatternFree]
      trivial
    · exact .nil
  | present _ hch => exact (hchain hch).1.existence _
  | search _ _ hch =>
    obtain ⟨helements, hterminal⟩ := hchain hch
    refine (helements.append (.triples ?_ fun v hv => hterminal v ?_)).existence _
    · exact List.forall_mem_cons.mpr ⟨trivial, List.forall_mem_singleton.mpr trivial⟩
    · simpa [elementVariables, Element.variables, Element.statement, Sparql.Triple.variables,
        Sparql.Predicate.variables, Node.variables] using hv
  | tested _ _ hch he =>
    exact ((hchain hch).1.append
      (.filter (isPatternFree_test (isPatternFree_ofNode _) he))).existence _

/-! ## Conditions -/

theorem asks_anchor {anchor : Element} (h : f.anchor = .ok anchor) : Asks [anchor] := by
  obtain ⟨classUri, -, h⟩ := Outcome.bind_eq_ok.mp h
  obtain rfl := Except.ok.inj h
  refine .triples (List.forall_mem_singleton.mpr trivial) fun v hv => ?_
  rw [List.mem_singleton.mp hv]
  exact isInternal_rootVariable

mutual

/-- The elements of a condition ask something of the document. -/
theorem asks_compile (hs : f.schema.WellFormed) : ∀ (cond : Condition) {negated : Bool}
    {m n : Nat} {es : List Element}, f.compile negated m cond = .ok (es, n) → Asks es
  | .compare cmp, _, _, _, _, h => asks_comparison hs (compile_compare_eq_ok.mp h).1
  | .and children, negated, _, _, _, h => by
    cases negated
    · exact asks_compileAll hs children h
    · obtain ⟨anchor, branches, hanchor, hbranches, rfl⟩ := union_eq_ok.mp h
      exact .union (asks_compileBranches hs children (asks_anchor hanchor) hbranches)
  | .or children, negated, _, _, _, h => by
    cases negated
    · obtain ⟨anchor, branches, hanchor, hbranches, rfl⟩ := union_eq_ok.mp h
      exact .union (asks_compileBranches hs children (asks_anchor hanchor) hbranches)
    · exact asks_compileAll hs children h
  | .not child, _, _, _, _, h => asks_compile hs child h

theorem asks_compileAll (hs : f.schema.WellFormed) : ∀ (conds : List Condition)
    {negated : Bool} {m n : Nat} {es : List Element},
      f.compileAll negated m conds = .ok (es, n) → Asks es
  | [], _, _, _, _, h => by
    obtain ⟨rfl, -⟩ := Prod.mk.inj (Except.ok.inj h)
    exact .nil
  | cond :: rest, _, _, _, _, h => by
    obtain ⟨here, k, others, hhere, hothers, rfl⟩ := compileAll_cons_eq_ok.mp h
    exact (asks_compile hs cond hhere).append (asks_compileAll hs rest hothers)

/-- The branches of a union ask something each, behind an anchor that does. -/
theorem asks_compileBranches (hs : f.schema.WellFormed) : ∀ (conds : List Condition)
    {negated : Bool} {m n : Nat} {anchor : Element} {branches : List (List Element)},
      Asks [anchor] → f.compileBranches negated anchor m conds = .ok (branches, n) →
        ∀ es ∈ branches, Asks es
  | [], _, _, _, _, _, _, h => by
    obtain ⟨rfl, -⟩ := Prod.mk.inj (Except.ok.inj h)
    exact nofun
  | cond :: rest, _, _, _, _, _, hanchor, h => by
    obtain ⟨here, k, others, hhere, hothers, rfl⟩ := compileBranches_cons_eq_ok.mp h
    exact List.forall_mem_cons.mpr ⟨hanchor.append (asks_compile hs cond hhere),
      asks_compileBranches hs rest hanchor hothers⟩

end

end FilterScope

end DocGraph
