import DocGraph.Proofs.Compile.CompiledFilters
import DocGraph.Proofs.Compile.ScopedColumns
import DocGraph.Proofs.Query.NegationFree
import DocGraph.Proofs.Query.Valuation
import DocGraph.Proofs.Select.Mentions

/-!
# Filters have variables of their own

The comparisons of a filter are numbered from left to right, and what a comparison is compiled
to holds the document and variables with its number, anywhere (`allows_comparison`). So two
comparisons have nothing but the document in common.

The variables of columns are those of other roles, and a name tells its role by its first
piece (`HasRole.not_isColumnVariable`). So no comparison touches a column.
-/

namespace DocGraph

open Rdf (Term Variable rdfType)
open Sparql (Aggregate Expr Node)

/-! ## Roles of variables -/

theorem Text.split_append {sep : Char} {a : String} (h : sep ∉ a.toList) (b : String) :
    split sep (a ++ String.singleton sep ++ b) = a :: split sep b := by
  have hsep : ∀ c ∈ a.toList, (c == sep) = false := fun c hc =>
    beq_false_of_ne fun he => h (he ▸ hc)
  rw [split, String.toList_append, String.toList_append, String.toList_singleton, List.append_assoc,
    List.singleton_append, List.splitOn, List.splitOnP_append_cons_of_forall_mem hsep sep
      (beq_self_eq_true sep), List.map_cons, String.ofList_toList]
  rfl

/-- Whether a variable has a role, at some path. -/
def HasRole (role : Role) (v : Variable) : Prop :=
  ∃ segments, variableAt role segments = .ok v

/-- Whether a variable is that of the document or has a role. -/
def Role.Allows (role : Role) (v : Variable) : Prop :=
  v = rootVariable ∨ HasRole role v

section Roles

variable {role : Role} {v : Variable}

/-- The name of a variable begins with the tag of its role, unless it is the document. -/
theorem HasRole.head_pieces {tag : String} (htag : role.tag? = some tag) (h : HasRole role v) :
    role = .node ∧ v = rootVariable ∨ (pieces v).head? = some tag := by
  obtain ⟨segments, h⟩ := h
  have hname := name_of_variableAt h
  have hsep := Role.separator_notMem_tag htag
  simp only [variableName, htag] at hname
  split at hname
  · split at hname
    · next hnode => exact .inl ⟨hnode, congrArg Variable.mk hname⟩
    · refine .inr ?_
      rw [pieces, hname, ← Text.join_singleton Role.separator tag, Text.split_join _ _
        (List.cons_ne_nil _ _) (List.forall_mem_singleton.mpr hsep), Text.join_singleton]
      rfl
  · refine .inr ?_
    rw [pieces, hname, Text.split_append hsep]
    rfl

theorem Role.tag?_filter (n : Nat) : (Role.filter n).tag? = some ("_filter" ++ toString n) := rfl

/-- A private variable of a comparison begins with its number. -/
theorem HasRole.head_filter {n : Nat} (h : HasRole (.filter n) v) :
    (pieces v).head? = some ("_filter" ++ toString n) :=
  (h.head_pieces rfl).resolve_left fun hnode => nomatch hnode.1

theorem HasRole.filter_inj {m n : Nat} (hm : HasRole (.filter m) v) (hn : HasRole (.filter n) v) :
    m = n :=
  Role.filter.inj (Role.tag?_injective (Role.tag?_filter m)
    (hn.head_filter.symm.trans hm.head_filter))

theorem not_hasRole_root (n : Nat) : ¬HasRole (.filter n) rootVariable := fun h => by
  have hhead := h.head_filter
  rw [pieces_rootVariable, List.head?_cons, Option.some_inj] at hhead
  exact Role.tag_ne_rootName (Role.tag?_filter n) hhead.symm

/-- The variables that documents and columns are matched with: the document, a node, a value
that is packed, and the column of a field. -/
inductive IsColumnVariable (v : Variable) : Prop
  | root (h : v = rootVariable)
  | inner (role : Role) (hrole : role ∈ [.node, .encoded, .packed]) (h : HasRole role v)
  | output {name : String} (hname : isFieldName name = true) (h : outputVariable name = .ok v)

/-- No variable of a column is private to a comparison. -/
theorem HasRole.not_isColumnVariable {n : Nat} (h : HasRole (.filter n) v) :
    ¬IsColumnVariable v := by
  rintro (rfl | ⟨role, hrole, hv⟩ | ⟨hname, hv⟩)
  · exact not_hasRole_root n h
  · have hne : role ≠ .output ∧ role ≠ .filter n := by
      constructor <;> rintro rfl <;> simp at hrole
    obtain ⟨tag, htag⟩ := Role.exists_tag hne.1
    rcases hv.head_pieces htag with ⟨-, rfl⟩ | hhead
    · exact not_hasRole_root n h
    · obtain rfl := Option.some.inj (hhead.symm.trans h.head_filter)
      exact hne.2 (Role.tag?_injective htag rfl)
  · have hhead := h.head_filter
    rw [pieces_of_outputVariable hname hv] at hhead
    have hsegment := List.all_eq_true.mp hname _ (List.mem_of_mem_head? hhead)
    rw [Role.isFieldSegment_tag (Role.tag?_filter n)] at hsegment
    cases hsegment

end Roles

/-! ## Hops and chains -/

variable {s : Schema} {model : String} {es : List Element} {role : Role}

theorem elementMentions_of_triples (h : ∀ e ∈ es, e.IsTriple) :
    elementMentions es = elementVariables es := by
  induction es with
  | nil => rfl
  | cons e es ih =>
    rw [List.forall_mem_cons] at h
    rw [elementMentions, elementVariables, ih h.2]
    cases e with
    | triple | inverse => rfl
    | _ => exact h.1.elim

theorem mentions_hop {subject object : Node} {step : PathStep}
    (h : hop s subject step object = .ok es) :
    ∀ v ∈ elementMentions es, v ∈ subject.variables ∨ v ∈ object.variables := by
  rw [elementMentions_of_triples (isTriple_hop h)]
  exact variables_hop h

/-- Whether elements and the node that they lead to hold nothing but variables of a role. -/
structure Chain.IsAllowed (role : Role) (ch : Chain) : Prop where
  elements : ∀ v ∈ elementMentions ch.elements, role.Allows v
  terminal : ∀ v ∈ ch.terminal.variables, role.Allows v

theorem allows_rootNode : ∀ v ∈ rootNode.variables, role.Allows v :=
  List.forall_mem_singleton.mpr (.inl rfl)

theorem allows_isRoot (t : Term) : ∀ v ∈ elementMentions [isRoot t], role.Allows v := by
  rw [elementMentions_singleton, isRoot, Element.mentions, Expr.mentions, Expr.mentions_ofTerm,
    List.append_nil, Expr.mentions]
  exact List.forall_mem_singleton.mpr (.inl rfl)

section Chains

variable {segments : List String} {steps : List PathStep} {constant : Option Term}
  {subject : Node} {ch : Chain}

theorem isAllowed_chainFrom {taken : Nat}
    (h : chainFrom s role segments constant subject taken steps = .ok ch)
    (hsubject : ∀ v ∈ subject.variables, role.Allows v) : ch.IsAllowed role := by
  induction steps generalizing subject taken ch with
  | nil =>
    obtain rfl := Except.ok.inj h
    exact ⟨nofun, hsubject⟩
  | cons step rest ih =>
    have hhop {object : Node} {es : List Element} (hes : hop s subject step object = .ok es)
        (hobject : ∀ v ∈ object.variables, role.Allows v) :
        ∀ v ∈ elementMentions es, role.Allows v :=
      fun v hv => (mentions_hop hes v hv).elim (hsubject v) (hobject v)
    rcases chainFrom_cons h with ⟨t, here, -, -, hhere, rfl⟩ |
      ⟨w, here, further, -, hw, hhere, hfurther, rfl⟩
    · exact ⟨hhop hhere nofun, nofun⟩
    · have hobject : ∀ v ∈ (Node.var w).variables, role.Allows v :=
        List.forall_mem_singleton.mpr (.inr ⟨_, hw⟩)
      obtain ⟨helements, hterminal⟩ := ih hfurther hobject
      refine ⟨fun v hv => ?_, hterminal⟩
      rw [elementMentions_append, List.mem_append] at hv
      exact hv.elim (hhop hhere hobject v) (helements v)

/-- A chain holds the document and variables of its role. -/
theorem isAllowed_chain (h : chain s role segments steps constant = .ok ch) :
    ch.IsAllowed role := by
  rcases chain_cases h with ⟨t, -, -, rfl⟩ | ⟨-, h⟩
  · exact ⟨allows_isRoot t, nofun⟩
  · exact isAllowed_chainFrom h allows_rootNode

end Chains

/-! ## Comparisons -/

namespace FilterScope

variable {f : FilterScope} {n : Nat} {cmp : Comparison}

theorem allows_allOf {segments : List String} {steps : List PathStep} {values : List Term}
    (h : f.allOf role segments steps values = .ok es) :
    ∀ v ∈ elementMentions es, role.Allows v := by
  intro v hv
  rcases allOf_cases h with ⟨-, rfl⟩ | ⟨front, last, parent, ends, -, hparent, hends, rfl⟩
  · obtain ⟨e, he, hv⟩ := mem_elementMentions.mp hv
    obtain ⟨t, -, rfl⟩ := List.mem_map.mp he
    exact allows_isRoot t v (elementMentions_singleton _ ▸ hv)
  · obtain ⟨helements, hterminal⟩ := isAllowed_chain hparent
    rw [elementMentions_append, List.mem_append, mem_elementMentions_flatten] at hv
    rcases hv with hv | ⟨es, hes, hv⟩
    · exact helements v hv
    · obtain ⟨t, -, hhop⟩ := exists_left_of_mem hends hes
      exact (mentions_hop hhop v hv).elim (hterminal v) nofun

/-- A test holds nothing but the value that it is of. -/
theorem mentions_test {operator : Operator} {value e : Expr}
    (h : f.CompiledTest cmp value operator e) : e.mentions = value.mentions := by
  cases h with
  | eq | gt | gte | lt | lte => rw [Expr.mentions, Expr.mentions_ofTerm, List.append_nil]
  | oneOf => rw [Expr.mentions, Expr.allMentions_ofTerms, List.append_nil]
  | regex | iregex | strlen =>
    simp only [Expr.string, Expr.mentions, Expr.allMentions, List.append_nil]

/-- To ask whether elements have a match holds the same variables. -/
theorem mem_mentions_existence {negated : Bool} {v : Variable} :
    v ∈ elementMentions (existence negated es) ↔ v ∈ elementMentions es := by
  rw [existence, elementMentions_singleton, Element.mentions, ← mem_mentions_groupPattern]
  cases negated <;> rfl

/-- What a comparison is compiled to holds the document and its private variables. -/
theorem allows_comparison (h : f.comparison n cmp = .ok es) :
    ∀ v ∈ elementMentions es, (Role.filter n).Allows v := by
  obtain ⟨r, -, h⟩ := comparison_eq_ok h
  have hexistence {negated : Bool} {es : List Element}
      (hes : ∀ v ∈ elementMentions es, (Role.filter n).Allows v) :
      ∀ v ∈ elementMentions (existence negated es), (Role.filter n).Allows v :=
    fun v hv => hes v (mem_mentions_existence.mp hv)
  -- what stands after a chain holds its end
  have hends {ch : Chain} {further : List Element}
      (hch : chain f.schema (.filter n) cmp.path.segments r.steps none = .ok ch)
      (hfurther : ∀ v ∈ elementMentions further, v ∈ ch.terminal.variables) :
      ∀ v ∈ elementMentions (ch.elements ++ further), (Role.filter n).Allows v := by
    intro v hv
    obtain ⟨helements, hterminal⟩ := isAllowed_chain hch
    rw [elementMentions_append, List.mem_append] at hv
    exact hv.elim (helements v) fun hv => hterminal v (hfurther v hv)
  cases h with
  | inlined _ _ hch => exact (isAllowed_chain hch).elements
  | all _ _ hinner =>
    split
    · exact hexistence (allows_allOf hinner)
    · exact allows_allOf hinner
  | itself => split <;> exact nofun
  | present _ hch => exact hexistence (isAllowed_chain hch).elements
  | search _ _ hch =>
    refine hexistence (hends hch fun v hv => ?_)
    simpa [elementMentions, Element.mentions, Element.statement, Sparql.Triple.variables,
      Sparql.Predicate.variables, Node.variables] using hv
  | tested _ _ hch he =>
    refine hexistence (hends hch fun v hv => ?_)
    rwa [elementMentions_singleton, Element.mentions, mentions_test he, Expr.mentions_ofNode] at hv

end FilterScope

end DocGraph
