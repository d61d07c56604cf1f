import DocGraph.Proofs.Compile.PrivateVariables

/-!
# Filters do not interfere

What a filter without negations is compiled to are the elements of its comparisons, one after
the other for a conjunction and in the branches of a union for a disjunction
(`FilterScope.Placed`). The comparisons are numbered from left to right, so that each has
private variables (`FilterScope.isNumbered_compile`), and the columns of a query have none of
these (`isColumnVariable_of_compile`).
-/

namespace DocGraph

open Rdf (Variable rdfType)
open Sparql (Expr Node)

namespace Condition

theorem foldList_listing (negated conjunctive : Bool) (conds : List Condition) :
    foldList (.listing Comparison) ([·]) negated conjunctive conds =
      conds.flatMap (comparisons negated) := by
  induction conds with
  | nil => rfl
  | cons cond rest ih =>
    rw [foldList, ih, List.flatMap_cons]
    rfl

theorem comparisons_and (conds : List Condition) :
    (Condition.and conds).comparisons false = conds.flatMap (comparisons false) :=
  foldList_listing false true conds

theorem comparisons_or (conds : List Condition) :
    (Condition.or conds).comparisons false = conds.flatMap (comparisons false) :=
  foldList_listing false false conds

theorem comparisons_eliminateNot (negated : Bool) (cond : Condition) :
    cond.eliminateNot.comparisons negated = cond.comparisons negated :=
  fold_eliminateNot negated cond

end Condition

namespace FilterScope

mutual

/-- Whether elements are those of a condition, where those of its comparisons are given from
left to right. A conjunction has the elements of its conditions one after the other, and a
disjunction has a union with a branch for each, which begins with the anchor. -/
inductive Placed (f : FilterScope) : Condition → List (List Element) → List Element → Prop
  | compare {c : Comparison} {es : List Element} : Placed f (.compare c) [es] es
  | and {conds : List Condition} {pieces parts : List (List Element)}
    (h : AllPlaced f conds pieces parts) : Placed f (.and conds) pieces parts.flatten
  | or {conds : List Condition} {pieces parts : List (List Element)} {anchor : Element}
    (hanchor : f.anchor = .ok anchor) (h : AllPlaced f conds pieces parts) :
    Placed f (.or conds) pieces [.union (parts.map (anchor :: ·))]

/-- Whether some parts are the elements of some conditions. -/
inductive AllPlaced (f : FilterScope) :
    List Condition → List (List Element) → List (List Element) → Prop
  | nil : AllPlaced f [] [] []
  | cons {cond : Condition} {conds : List Condition} {pieces others parts : List (List Element)}
    {es : List Element} (h : Placed f cond pieces es) (hrest : AllPlaced f conds others parts) :
    AllPlaced f (cond :: conds) (pieces ++ others) (es :: parts)

end

/-- Whether comparisons that are numbered from `n` on are compiled to some elements. -/
def Numbered (f : FilterScope) (n : Nat) (cs : List Comparison) (pieces : List (List Element)) :
    Prop :=
  List.Forall₂ (fun c piece => f.comparison c.2 c.1 = .ok piece) (cs.zipIdx n) pieces

variable {f : FilterScope} {n m : Nat} {pieces others : List (List Element)} {es : List Element}

theorem Numbered.append {cs ds : List Comparison} (h : f.Numbered n cs pieces)
    (h' : f.Numbered (n + cs.length) ds others) : f.Numbered n (cs ++ ds) (pieces ++ others) := by
  rw [Numbered, List.zipIdx_append]
  exact List.rel_append h h'

theorem Numbered.length_eq {cs : List Comparison} (h : f.Numbered n cs pieces) :
    cs.length = pieces.length :=
  List.length_zipIdx.symm.trans (List.Forall₂.length_eq h)

/-- The elements of a numbered comparison hold the document and its private variables. -/
theorem Numbered.allows {cs : List Comparison} (h : f.Numbered n cs pieces) {i : Nat}
    {piece : List Element} (hi : pieces[i]? = some piece) :
    ∀ v ∈ elementMentions piece, (Role.filter (n + i)).Allows v := by
  obtain ⟨hlt, rfl⟩ := List.getElem?_eq_some_iff.mp hi
  have hcomparison := List.Forall₂.get h (List.Forall₂.length_eq h ▸ hlt) hlt
  rw [List.get_eq_getElem, List.getElem_zipIdx] at hcomparison
  exact allows_comparison hcomparison

/-- Whether elements are those of a condition, whose comparisons are numbered from `n` on, with
the number `m` after them. -/
def IsNumbered (f : FilterScope) (n m : Nat) (cond : Condition) (es : List Element) : Prop :=
  m = n + (cond.comparisons false).length ∧
    ∃ pieces, f.Numbered n (cond.comparisons false) pieces ∧ f.Placed cond pieces es

/-- Whether some parts are those of conditions, whose comparisons are numbered from `n` on, with
the number `m` after them. -/
def AreNumbered (f : FilterScope) (n m : Nat) (conds : List Condition)
    (parts : List (List Element)) : Prop :=
  m = n + (conds.flatMap (Condition.comparisons false)).length ∧
    ∃ pieces, f.Numbered n (conds.flatMap (Condition.comparisons false)) pieces ∧
      f.AllPlaced conds pieces parts

theorem AreNumbered.nil : f.AreNumbered n n [] [] :=
  ⟨rfl, [], .nil, .nil⟩

/-- The comparisons of the first condition come first. -/
theorem AreNumbered.cons {k : Nat} {cond : Condition} {rest : List Condition}
    {parts : List (List Element)} (h : f.IsNumbered n k cond es)
    (hrest : f.AreNumbered k m rest parts) : f.AreNumbered n m (cond :: rest) (es :: parts) := by
  obtain ⟨rfl, pieces, hpieces, hplaced⟩ := h
  obtain ⟨rfl, others, hothers, hrest⟩ := hrest
  rw [AreNumbered, List.flatMap_cons, List.length_append, ← Nat.add_assoc]
  exact ⟨rfl, pieces ++ others, hpieces.append hothers, .cons hplaced hrest⟩

mutual

/-- A condition without negations is compiled to the elements of its comparisons, which are
numbered from left to right. -/
theorem isNumbered_compile : ∀ (cond : Condition) {n m : Nat} {es : List Element},
    cond.isNegationFree = true → f.compile false n cond = .ok (es, m) → f.IsNumbered n m cond es
  | .compare c, n, m, es, _, h => by
    obtain ⟨hes, rfl⟩ := compile_compare_eq_ok.mp h
    exact ⟨rfl, [es], .cons hes .nil, .compare⟩
  | .and children, n, m, es, hfree, h => by
    obtain ⟨parts, ⟨hm, pieces, hpieces, hplaced⟩, rfl⟩ := areNumbered_compileAll children hfree h
    rw [IsNumbered, Condition.comparisons_and]
    exact ⟨hm, pieces, hpieces, .and hplaced⟩
  | .or children, n, m, es, hfree, h => by
    obtain ⟨anchor, branches, hanchor, hbranches, rfl⟩ := union_eq_ok.mp h
    obtain ⟨parts, ⟨hm, pieces, hpieces, hplaced⟩, rfl⟩ :=
      areNumbered_compileBranches children hfree hbranches
    rw [IsNumbered, Condition.comparisons_or]
    exact ⟨hm, pieces, hpieces, .or hanchor hplaced⟩
  | .not _, _, _, _, hfree, _ => nomatch hfree

theorem areNumbered_compileAll : ∀ (conds : List Condition) {n m : Nat} {es : List Element},
    Condition.allNegationFree conds = true → f.compileAll false n conds = .ok (es, m) →
      ∃ parts, f.AreNumbered n m conds parts ∧ es = parts.flatten
  | [], n, m, es, _, h => by
    obtain ⟨rfl, rfl⟩ := Prod.mk.inj (Except.ok.inj h)
    exact ⟨[], .nil, rfl⟩
  | cond :: rest, n, m, es, hfree, h => by
    have hfree := Bool.and_eq_true_iff.mp hfree
    obtain ⟨here, k, others, hhere, hothers, rfl⟩ := compileAll_cons_eq_ok.mp h
    obtain ⟨parts, hparts, rfl⟩ := areNumbered_compileAll rest hfree.2 hothers
    exact ⟨here :: parts, .cons (isNumbered_compile cond hfree.1 hhere) hparts, rfl⟩

theorem areNumbered_compileBranches : ∀ (conds : List Condition) {anchor : Element} {n m : Nat}
    {branches : List (List Element)}, Condition.allNegationFree conds = true →
      f.compileBranches false anchor n conds = .ok (branches, m) →
      ∃ parts, f.AreNumbered n m conds parts ∧ branches = parts.map (anchor :: ·)
  | [], anchor, n, m, branches, _, h => by
    obtain ⟨rfl, rfl⟩ := Prod.mk.inj (Except.ok.inj h)
    exact ⟨[], .nil, rfl⟩
  | cond :: rest, anchor, n, m, branches, hfree, h => by
    have hfree := Bool.and_eq_true_iff.mp hfree
    obtain ⟨here, k, others, hhere, hothers, rfl⟩ := compileBranches_cons_eq_ok.mp h
    obtain ⟨parts, hparts, rfl⟩ := areNumbered_compileBranches rest hfree.2 hothers
    exact ⟨here :: parts, .cons (isNumbered_compile cond hfree.1 hhere) hparts, rfl⟩

end

theorem mentions_anchor {anchor : Element} (h : f.anchor = .ok anchor) :
    anchor.mentions = [rootVariable] := by
  obtain ⟨classUri, -, h⟩ := Outcome.bind_eq_ok.mp h
  rw [← Except.ok.inj h]
  rfl

mutual

/-- The elements of a condition hold the document and what those of its comparisons hold. -/
theorem Placed.mentions {v : Variable} : ∀ {cond : Condition} {pieces : List (List Element)}
    {es : List Element}, f.Placed cond pieces es → v ∈ elementMentions es →
      v = rootVariable ∨ v ∈ elementMentions pieces.flatten
  | _, _, _, .compare, hv => .inr (by rwa [List.flatten_singleton])
  | _, _, _, .and h, hv => h.mentions hv
  | _, _, _, .or hanchor h, hv => by
    rw [elementMentions_singleton, Element.mentions] at hv
    obtain ⟨branch, hbranch, hv⟩ := mem_branchMentions.mp hv
    obtain ⟨part, hpart, rfl⟩ := List.mem_map.mp hbranch
    rw [elementMentions, mentions_anchor hanchor, List.mem_append, List.mem_singleton] at hv
    rcases hv with rfl | hv
    · exact .inl rfl
    · exact h.mentions (mem_elementMentions_flatten.mpr ⟨part, hpart, hv⟩)

theorem AllPlaced.mentions {v : Variable} : ∀ {conds : List Condition}
    {pieces parts : List (List Element)}, f.AllPlaced conds pieces parts →
      v ∈ elementMentions parts.flatten → v = rootVariable ∨ v ∈ elementMentions pieces.flatten
  | _, _, _, .nil, hv => nomatch hv
  | _, _, _, .cons h hrest, hv => by
    rw [List.flatten_cons, elementMentions_append, List.mem_append] at hv
    rw [List.flatten_append, elementMentions_append, List.mem_append]
    rcases hv with hv | hv
    · exact (h.mentions hv).imp_right .inl
    · exact (hrest.mentions hv).imp_right .inr

end

/-- What a filter holds is the document, or private to one of its comparisons. -/
theorem mentions_compile {cond : Condition} (hfree : cond.isNegationFree = true)
    (h : f.compile false n cond = .ok (es, m)) {v : Variable} (hv : v ∈ elementMentions es) :
    v = rootVariable ∨ ∃ i < (cond.comparisons false).length, HasRole (.filter (n + i)) v := by
  obtain ⟨-, pieces, hpieces, hplaced⟩ := isNumbered_compile cond hfree h
  rcases hplaced.mentions hv with hroot | hv
  · exact .inl hroot
  obtain ⟨piece, hpiece, hv⟩ := mem_elementMentions_flatten.mp hv
  obtain ⟨i, hi⟩ := List.mem_iff_getElem?.mp hpiece
  refine (hpieces.allows hi v hv).imp_right fun hrole => ⟨i, ?_, hrole⟩
  rw [hpieces.length_eq]
  exact (List.getElem?_eq_some_iff.mp hi).1

end FilterScope

/-! ## Columns -/

variable {s : Schema} {model name : String} {q : Spec} {es : List Element}

/-- Whether the column of a field and its binding hold none but variables of columns. -/
structure CompiledColumn.IsColumnOnly (c : CompiledColumn) : Prop where
  column : ∀ v ∈ c.column.mentions, IsColumnVariable v
  binding : ∀ e, c.binding = some e → ∀ v ∈ e.mentions, IsColumnVariable v

theorem PathPrefix.isColumnVariable_nodeAt {path : Path} {r : ResolvedPath} {n : Nat} {node : Node}
    (h : nodeAt path r n = .ok node) : ∀ v ∈ node.variables, IsColumnVariable v := by
  rcases nodeAt_cases h with rfl | ⟨i, rfl⟩ | ⟨m, step, w, -, -, -, -, hw, rfl⟩
  · exact List.forall_mem_singleton.mpr (.root rfl)
  · exact nofun
  · exact List.forall_mem_singleton.mpr (.inner .node (by decide) ⟨_, hw⟩)

theorem PathPrefix.isColumnVariable_hops {ps : List PathPrefix} (h : hops s ps = .ok es) :
    ∀ v ∈ elementMentions es, IsColumnVariable v := by
  intro v hv
  obtain ⟨ess, hess, rfl⟩ := hops_eq_ok h
  obtain ⟨es, hes, hv⟩ := mem_elementMentions_flatten.mp hv
  obtain ⟨p, -, hhop⟩ := exists_left_of_mem hess hes
  rcases hop_eq_ok hhop with rfl | ⟨m, step, subject, object, -, -, hsubject, hobject, hhop⟩
  · cases hv
  · rcases mentions_hop hhop v hv with hv | hv
    · exact isColumnVariable_nodeAt hsubject v hv
    · exact isColumnVariable_nodeAt hobject v hv

namespace Projection

variable {path : Path} {start : Nat} {value : Expr} {c : CompiledColumn} {output : Variable}

theorem isColumnVariable_valueAt (h : valueAt s model path = .ok value) :
    ∀ v ∈ value.mentions, IsColumnVariable v := by
  obtain ⟨r, node, -, hnode, rfl⟩ := valueAt_eq_ok h
  rw [Expr.mentions_ofNode]
  exact PathPrefix.isColumnVariable_nodeAt hnode

theorem isColumnVariable_hopsAfter (h : hopsAfter s model path start = .ok es) :
    ∀ v ∈ elementMentions es, IsColumnVariable v := by
  obtain ⟨r, -, h⟩ := Outcome.bind_eq_ok.mp h
  exact PathPrefix.isColumnVariable_hops h

theorem mentions_encoded (value : Expr) : (encoded value).mentions = value.mentions := by
  simp only [encoded, Expr.mentions, Expr.allMentions, List.append_nil]

/-- The members of objects are matched with the variables of columns. -/
theorem isColumnVariable_blocks {property : Path} {members : Dict Path}
    {compiled : List CompiledMember}
    (h : List.Forall₂ (CompiledMember.IsOf s model property) members compiled) :
    ∀ v ∈ elementMentions (CompiledMember.blocks compiled), IsColumnVariable v := by
  intro v hv
  obtain ⟨e, he, hv⟩ := mem_elementMentions.mp hv
  obtain ⟨m, hm, rfl⟩ := List.mem_map.mp he
  obtain ⟨member, -, hof⟩ := exists_left_of_mem h (List.mem_of_mem_filter hm)
  exact isColumnVariable_hopsAfter hof.hops v hv

theorem mem_mentions_fragments {v : Variable} {index : Nat} {parts : List (String × Expr)} :
    v ∈ Expr.allMentions (objectFragments index parts) ↔ ∃ part ∈ parts, v ∈ part.2.mentions := by
  induction parts generalizing index with
  | nil => simp [objectFragments, Expr.string, Expr.allMentions, Expr.mentions]
  | cons part rest ih =>
    rw [objectFragments, List.exists_mem_cons_iff, ← @ih (index + 1)]
    simp only [Expr.allMentions, Expr.string, Expr.mentions, mentions_encoded, List.append_nil,
      List.nil_append, List.mem_append]

/-- A packed column holds its variables, what its value elements match, and what they pack. -/
theorem isColumnOnly_packed {raw v : Variable} {packing : Packing} {e : Expr}
    {projected : Option Path} (houtput : IsColumnVariable output)
    (hraw : fieldVariable .packed name = .ok raw) (hv : fieldVariable .encoded name = .ok v)
    (hes : ∀ v ∈ elementMentions es, IsColumnVariable v)
    (he : ∀ v ∈ e.mentions, IsColumnVariable v) :
    (⟨.packed output raw v packing (es ++ [.bind v e]), none, projected⟩ :
      CompiledColumn).IsColumnOnly := by
  have hencoded : IsColumnVariable v := .inner .encoded (by decide) ⟨_, hv⟩
  refine ⟨?_, nofun⟩
  rw [Column.mentions, elementMentions_append, elementMentions_singleton, Element.mentions,
    List.forall_mem_cons, List.forall_mem_cons, List.forall_mem_cons, List.forall_mem_append,
    List.forall_mem_cons]
  exact ⟨houtput, .inner .packed (by decide) ⟨_, hraw⟩, hencoded, hes, hencoded, he⟩

theorem isColumnOnly_valuesColumn (houtput : IsColumnVariable output)
    (h : valuesColumn s model name output path = .ok c) : c.IsColumnOnly := by
  obtain ⟨v, packed, hops, value, hv, hpacked, hhops, hvalue, rfl⟩ := valuesColumn_eq_ok h
  refine isColumnOnly_packed houtput hpacked hv (isColumnVariable_hopsAfter hhops) ?_
  rw [mentions_encoded]
  exact isColumnVariable_valueAt hvalue

theorem isColumnOnly_objectsColumn {members : Dict Path} (houtput : IsColumnVariable output)
    (h : objectsColumn s model name output path members = .ok c) : c.IsColumnOnly := by
  obtain ⟨v, packed, hops, compiled, hv, hpacked, hhops, hcompiled, rfl⟩ := objectsColumn_eq_ok h
  refine isColumnOnly_packed houtput hpacked hv ?_ fun w hw => ?_
  · rw [elementMentions_append, List.forall_mem_append]
    exact ⟨isColumnVariable_hopsAfter hhops, isColumnVariable_blocks hcompiled⟩
  · obtain ⟨part, hpart, hw⟩ := mem_mentions_fragments.mp hw
    obtain ⟨m, hm, rfl⟩ := List.mem_map.mp hpart
    obtain ⟨member, -, hof⟩ := exists_left_of_mem hcompiled hm
    exact isColumnVariable_valueAt hof.value w hw

theorem isColumnOnly_reducedColumn {r : Sparql.Reduction} {distinct : Bool}
    (houtput : IsColumnVariable output)
    (h : reducedColumn s model output path r distinct = .ok c) : c.IsColumnOnly := by
  obtain ⟨value, hops, hvalue, hhops, rfl⟩ := reducedColumn_eq_ok h
  refine ⟨?_, nofun⟩
  rw [Column.mentions, List.cons_append, List.forall_mem_cons, List.forall_mem_append]
  exact ⟨houtput, isColumnVariable_valueAt hvalue, isColumnVariable_hopsAfter hhops⟩

theorem isColumnOnly_scalarColumn {field : FieldPath} (houtput : IsColumnVariable output)
    (h : scalarColumn s model output field = .ok c) : c.IsColumnOnly := by
  obtain ⟨value, hvalue, h⟩ := Outcome.bind_eq_ok.mp h
  obtain rfl := Except.ok.inj h
  refine ⟨List.forall_mem_singleton.mpr houtput, fun e he => ?_⟩
  obtain rfl := Option.some.inj he
  rw [Element.mentions, List.forall_mem_cons]
  refine ⟨houtput, ?_⟩
  split
  · simpa only [Expr.mentions, Expr.allMentions, Expr.string, List.append_nil] using
      isColumnVariable_valueAt hvalue
  · exact isColumnVariable_valueAt hvalue

/-- Whatever a column is asked for by, it holds none but variables of columns. -/
theorem isColumnOnly_of_compile {source : ColumnSource} (hname : isFieldName name = true)
    (h : source.compile s model name = .ok c) : c.IsColumnOnly := by
  cases source with
  | field selector =>
    obtain ⟨output, houtput, h⟩ := Outcome.bind_eq_ok.mp h
    have houtput : IsColumnVariable output := .output hname houtput
    cases selector with
    | scalar field => exact isColumnOnly_scalarColumn houtput h
    | array field => exact isColumnOnly_valuesColumn houtput h
    | objects property members => exact isColumnOnly_objectsColumn houtput h
  | aggregate a =>
    obtain ⟨output, houtput, hcases⟩ := aggregateColumn_cases h
    have houtput : IsColumnVariable output := .output hname houtput
    rcases hcases with rfl | ⟨path, ⟨r, h⟩ | h | h⟩
    · exact ⟨List.forall_mem_cons.mpr ⟨houtput, List.forall_mem_singleton.mpr (.root rfl)⟩, nofun⟩
    · exact isColumnOnly_reducedColumn houtput h
    · exact isColumnOnly_valuesColumn houtput h
    · exact isColumnOnly_objectsColumn houtput h

end Projection

/-- The documents and the columns of a query are matched with none but the variables of
columns. -/
theorem isColumnVariable_of_compile {options : CompileOptions} {sel : Selection}
    (h : q.compile s options model = .ok sel) :
    (∀ v ∈ elementMentions (sel.required ++ sel.optionals ++ sel.bindings), IsColumnVariable v) ∧
      ∀ column ∈ sel.columns, ∀ v ∈ column.mentions, IsColumnVariable v := by
  obtain ⟨q', classUri, p, filters, orderBy, hvalid, hnormal, -, hp, -, rfl⟩ :=
    Spec.compile_eq_ok h
  obtain ⟨ts, compiled, -, hrequired, hoptionals, hcompiled, hbindings, hcolumns, -⟩ :=
    Projection.compile_eq_ok hp
  have honly : ∀ c ∈ compiled, c.IsColumnOnly := fun c hc => by
    obtain ⟨e, he, hcompile⟩ := exists_left_of_mem hcompiled hc
    exact Projection.isColumnOnly_of_compile (Spec.isFieldName_of_mem_sources hvalid hnormal e he)
      hcompile
  dsimp only
  rw [elementMentions_append, elementMentions_append, List.forall_mem_append,
    List.forall_mem_append, elementMentions, List.forall_mem_append, hbindings, hcolumns]
  refine ⟨⟨⟨⟨List.forall_mem_singleton.mpr (.root rfl),
    PathPrefix.isColumnVariable_hops hrequired⟩, fun v hv => ?_⟩, fun v hv => ?_⟩,
    fun column hcolumn => ?_⟩
  · obtain ⟨e, he, hv⟩ := mem_elementMentions.mp hv
    obtain ⟨group, -, block, hblock, rfl⟩ :=
      Projection.exists_block_of_mem_optionals hoptionals he
    exact PathPrefix.isColumnVariable_hops hblock v hv
  · obtain ⟨e, he, hv⟩ := mem_elementMentions.mp hv
    obtain ⟨c, hc, hbinding⟩ := List.mem_filterMap.mp he
    exact (honly c hc).binding e hbinding v hv
  · obtain ⟨c, hc, rfl⟩ := List.mem_map.mp hcolumn
    exact (honly c hc).column

/-! ## Filters and columns -/

/-- The number of comparisons in the filter of a query. -/
def Spec.comparisonCount (q : Spec) : Nat :=
  match q.filter with
  | none => 0
  | some cond => (cond.comparisons false).length

theorem Spec.mentions_filters {options : CompileOptions} {sel : Selection}
    (h : q.compile s options model = .ok sel) {v : Variable}
    (hv : v ∈ elementMentions sel.filters) :
    v = rootVariable ∨ ∃ k < q.comparisonCount, HasRole (.filter k) v := by
  obtain ⟨q', classUri, p, filters, orderBy, -, hnormal, -, -, hfilters, rfl⟩ := compile_eq_ok h
  obtain ⟨fields, rfl, -⟩ := normalized_eq_ok hnormal
  unfold filterElements at hfilters
  unfold comparisonCount
  cases hq : q.filter with
  | none =>
    simp only [hq, Except.ok.injEq] at hfilters
    rw [← hfilters] at hv
    cases hv
  | some cond =>
    simp only [hq] at hfilters
    obtain ⟨⟨es, m⟩, hcompile, hfilters⟩ := Outcome.bind_eq_ok.mp hfilters
    obtain rfl := Except.ok.inj hfilters
    have hmentions := FilterScope.mentions_compile cond.isNegationFree_eliminateNot hcompile hv
    simpa only [Condition.comparisons_eliminateNot, Nat.zero_add] using hmentions

/-- Filters do not interfere. The comparisons of a filter without negations are numbered from
left to right, and what each is compiled to holds, in its triples, its tests and the patterns
that it asks for, the document and variables with its number only. No variable of a filter is
in what the documents and the columns of a query are matched with. -/
theorem filters_do_not_interfere :
    (∀ (f : FilterScope) (cond : Condition) (n m : Nat) (es : List Element),
      cond.isNegationFree = true → f.compile false n cond = .ok (es, m) →
      m = n + (cond.comparisons false).length ∧
      ∃ pieces : List (List Element),
        f.Numbered n (cond.comparisons false) pieces ∧ f.Placed cond pieces es ∧
        (∀ (i : Nat) (piece : List Element), pieces[i]? = some piece →
          ∀ v ∈ elementMentions piece, v = rootVariable ∨ HasRole (.filter (n + i)) v) ∧
        ∀ (i j : Nat) (piece piece' : List Element), pieces[i]? = some piece →
          pieces[j]? = some piece' → i ≠ j →
          ∀ v ∈ elementMentions piece, v ∈ elementMentions piece' → v = rootVariable) ∧
    ∀ (q : Spec) (s : Schema) (options : CompileOptions) (model : String) (sel : Selection),
      q.compile s options model = .ok sel →
      (∀ v ∈ elementMentions sel.filters,
        v = rootVariable ∨ ∃ k < q.comparisonCount, HasRole (.filter k) v) ∧
      ∀ k v, HasRole (.filter k) v →
        v ∉ elementMentions (sel.required ++ sel.optionals ++ sel.bindings) ∧
        ∀ column ∈ sel.columns, v ∉ column.mentions := by
  refine ⟨fun f cond n m es hfree hcompile => ?_, fun q s options model sel hcompile => ?_⟩
  · obtain ⟨hm, pieces, hpieces, hplaced⟩ := FilterScope.isNumbered_compile cond hfree hcompile
    refine ⟨hm, pieces, hpieces, hplaced, fun i piece hi => hpieces.allows hi, ?_⟩
    intro i j piece piece' hi hj hne v hv hv'
    refine (hpieces.allows hi v hv).resolve_right fun hrole => ?_
    rcases hpieces.allows hj v hv' with rfl | hrole'
    · exact not_hasRole_root _ hrole
    · exact hne (Nat.add_left_cancel (hrole.filter_inj hrole'))
  · obtain ⟨hdocuments, hcolumns⟩ := isColumnVariable_of_compile hcompile
    exact ⟨fun v => Spec.mentions_filters hcompile, fun k v hrole =>
      ⟨fun hv => hrole.not_isColumnVariable (hdocuments v hv), fun column hcolumn hv =>
        hrole.not_isColumnVariable (hcolumns column hcolumn v hv)⟩⟩

/-- People of more than five years, or of an age other than five. -/
def notFive : Condition :=
  .or [FilterScope.ageOfFive .gt, FilterScope.ageOfFive .ne]

/-- The ages of these people. -/
def agesNotFive : Spec where
  fields := [("age", .scalar (.ofText "age"))]
  filter := some notFive

/-- The two comparisons of an age have the document in common only, and the second one has a
variable that the column of the ages does not have. -/
theorem filters_do_not_interfere_notFive :
    ∃ es sel, FilterScope.ofPeople.compile false 0 notFive = .ok (es, 2) ∧
      agesNotFive.compile peopleSchema {} "Person" = .ok sel ∧
      (∃ first second, FilterScope.ofPeople.Placed notFive [first, second] es ∧
        ∀ v ∈ elementMentions first, v ∈ elementMentions second → v = rootVariable) ∧
      HasRole (.filter 1) ⟨"_filter1\u00b7age"⟩ ∧
      ∀ column ∈ sel.columns, ⟨"_filter1\u00b7age"⟩ ∉ column.mentions := by
  obtain ⟨hfilter, hquery⟩ := filters_do_not_interfere
  obtain ⟨es, hes⟩ : ∃ es, FilterScope.ofPeople.compile false 0 notFive = .ok (es, 2) := ⟨_, rfl⟩
  obtain ⟨sel, hsel⟩ : ∃ sel, agesNotFive.compile peopleSchema {} "Person" = .ok sel := ⟨_, rfl⟩
  obtain ⟨-, pieces, hpieces, hplaced, -, hapart⟩ := hfilter _ _ _ _ _ rfl hes
  obtain ⟨first, second, rfl⟩ : ∃ first second, pieces = [first, second] :=
    List.length_eq_two.mp hpieces.length_eq.symm
  have hrole : HasRole (.filter 1) ⟨"_filter1\u00b7age"⟩ := ⟨["age"], rfl⟩
  exact ⟨es, sel, hes, hsel, ⟨first, second, hplaced, hapart 0 1 _ _ rfl rfl Nat.zero_ne_one⟩,
    hrole, ((hquery _ _ _ _ _ hsel).2 1 _ hrole).2⟩

end DocGraph
