import DocGraph.Proofs.Compile.KeyDocuments
import DocGraph.Proofs.Select.Patterns

/-!
# The row of some keys

In a graph with the statements about one document, the query for some of its keys has
one row (`eval_ofKeys`). A column of one value has its term, and a packed column the
distinct texts of its terms, in the order that the store concatenates them in. For this
the documents make one group, and every reduction of it has one row with the key of the
group.
-/

namespace DocGraph

open Packing (packedValues)
open Rdf (Dataset Graph Iri Literal Term Variable rdfType)
open Sparql (Context Expr Node Pattern Solution Solutions Store concatenated)
open Sparql.Solutions (extensions join leftJoin)
open Text (Percent.encode)

theorem Rdf.Term.text?_eq {t : Term} (h : ∀ name, t ≠ .blank name) : t.text? = some t.lexical := by
  cases t with
  | blank name => exact absurd rfl (h name)
  | _ => rfl

namespace StoredKey

/-- The encoded texts of the terms of a key, once each. -/
def encodings (k : StoredKey) : List String :=
  (k.terms.map fun t => Percent.encode t.lexical).dedup

/-- The encoded text of a term, as a term. -/
def encodedTerm (t : Term) : Term :=
  .literal (.plain (Percent.encode t.lexical))

/-- What the value elements of a key bind for one of its terms. -/
def valueSolution (subject : Term) (k : StoredKey) (t : Term) : Solution :=
  ((Solution.empty.set rootVariable subject).set (k.var .node) t).set (k.var .encoded)
    (encodedTerm t)

/-- The variables of the columns with one value. -/
def outputs (keys : List StoredKey) : List Variable :=
  (singles keys).map (·.var .output)

/-- The key of the only group. -/
def groupSolution (subject : Term) (keys : List StoredKey) : Solution :=
  (documentSolution subject keys).restrict (outputs keys)

/-- The only document of the group. -/
def memberSolution (subject : Term) (keys : List StoredKey) : Solution :=
  (documentSolution subject keys).restrict (outputs keys ++ [rootVariable])

/-- What a packed column reduces. -/
def reduced (m : Model) (k : StoredKey) : Reduced :=
  ⟨k.var .packed, .reduce (.groupConcat Packing.values.separator) (.var (k.var .encoded)) true,
    k.values m⟩

/-- How a packed column is wrapped. -/
def wrapping (k : StoredKey) : Wrapping :=
  ⟨k.var .output, k.var .packed, .values⟩

/-- The encoded texts in the order that a store concatenates them in. -/
def arranged (store : Store) (subject : Term) (keys : List StoredKey) (k : StoredKey) :
    List String :=
  store.arrange (k.var .packed) (groupSolution subject keys) k.encodings

/-- The concatenated texts of a key. -/
def rawTerm (store : Store) (subject : Term) (keys : List StoredKey) (k : StoredKey) : Term :=
  .literal (.plain (concatenated Packing.values.separator (arranged store subject keys k)))

/-- The term of a packed column. -/
def packedTerm (store : Store) (subject : Term) (keys : List StoredKey) (k : StoredKey) : Term :=
  .literal (.plain (packedValues (arranged store subject keys k)))

variable {m : Model} {c : Context} {subject t : Term} {keys : List StoredKey} {k : StoredKey}
  {store : Store} {data : Dataset} {graph : Option Iri} {κ μ ν : Solution}

/-! ## The values of a packed column -/

theorem target_of_isMany (h : k.isMany = true) : ∃ p, k.target = .property p := by
  unfold isMany at h
  cases ht : k.target with
  | property p => exact ⟨p, rfl⟩
  | _ => simp [ht] at h

theorem eval_encoded {e : Expr} (h : e.eval c μ = some t) (ht : ∀ name, t ≠ .blank name) :
    (Projection.encoded e).eval c μ = some (encodedTerm t) := by
  have hstr : (Expr.call .str [e]).eval c μ = some (.literal (.plain t.lexical)) := by
    rw [Expr.eval_str h, Rdf.Term.text?_eq ht, Option.map_some]
  rw [Projection.encoded,
    Expr.eval_call [.literal (.plain t.lexical)] (by rw [List.map_singleton, hstr]; rfl)]
  rfl

/-- The value elements of a key have a solution for each of its terms. -/
theorem mem_eval_values (h : IsStored m c.statements subject keys) (hc : c.given = .empty)
    (hk : k ∈ manys keys) :
    κ ∈ (groupPattern (k.values m)).eval c ↔ ∃ t ∈ k.terms, κ = k.valueSolution subject t := by
  obtain ⟨hmem, hmany⟩ := mem_manys.mp hk
  obtain ⟨p, hp⟩ := target_of_isMany hmany
  have hof := h.isOf k hmem
  have hvalues : k.values m = [.statement rootNode p.predicate (.var (k.var .node))] ++
      [.bind (k.var .encoded) (Projection.encoded (.var (k.var .node)))] := by
    rw [values, hop, node, hp]
    rfl
  have hbind {x y : Term} (hy : ∀ name, y ≠ .blank name) :
      extendAll c [.bind (k.var .encoded) (Projection.encoded (.var (k.var .node)))]
        {(Solution.empty.set rootVariable x).set (k.var .node) y} =
      {((Solution.empty.set rootVariable x).set (k.var .node) y).set (k.var .encoded)
        (encodedTerm y)} := by
    change Multiset.map (fun μ : Solution => μ.extended c _ _) {_} = _
    rw [Multiset.map_singleton, Solution.extended, eval_encoded _ hy]
    rw [Expr.eval, Context.value?_eq hc, Solution.set_self]
  have hfilters : filtersOf (k.values m) = [] := by
    rw [hvalues]
    rfl
  have hne : k.var .node ≠ rootVariable := var_ne_root hof
  rw [eval_groupPattern, groupSolutions, hfilters, passing_nil, hvalues, mem_extendAll_append]
  simp only [mem_extendAll_statement, rootNode, h.statement_iff k hmem p hp,
    Sparql.mem_extensions_free hne (Context.value?_eq hc .empty _) (Context.value?_eq hc .empty _)]
  constructor
  · rintro ⟨ν, ⟨x, y, ⟨rfl, hy⟩, rfl⟩, hκ⟩
    rw [hbind (h.ne_blank k hmem y hy), Multiset.mem_singleton] at hκ
    exact ⟨y, hy, hκ⟩
  · rintro ⟨y, hy, rfl⟩
    refine ⟨_, ⟨subject, y, ⟨rfl, hy⟩, rfl⟩, ?_⟩
    rw [hbind (h.ne_blank k hmem y hy)]
    exact Multiset.mem_singleton_self _

/-! ## The group -/

theorem mem_outputs (hk : k ∈ singles keys) : k.var .output ∈ outputs keys :=
  List.mem_map_of_mem hk

namespace IsStored

variable {g : Graph}

theorem var_notMem_outputs (h : IsStored m g subject keys) (hk : k.IsOf m) {role : Role}
    (hne : role ≠ .output) : k.var role ∉ outputs keys :=
  var_notMem_map hk h.of_mem_singles hne

/-- A key has a column of one value or a packed one. -/
theorem disjoint_outputs (h : IsStored m g subject keys) :
    (outputs keys).Disjoint ((manys keys).map (·.var .output)) := fun v hv hv' => by
  obtain ⟨k, hk, rfl⟩ := List.mem_map.mp hv
  obtain ⟨k', hk', he⟩ := List.mem_map.mp hv'
  obtain ⟨hmem, hone⟩ := mem_singles.mp hk
  obtain ⟨hmem', hmany⟩ := mem_manys.mp hk'
  have hname := (var_injective (h.isOf k' hmem') (h.isOf k hmem) he).2
  obtain rfl := List.inj_on_of_nodup_map h.nodup_names hmem' hmem hname
  rw [hone] at hmany
  cases hmany

end IsStored

theorem groupSolution_output {g : Graph} (h : IsStored m g subject keys) (hk : k ∈ singles keys) :
    groupSolution subject keys (k.var .output) = some k.term := by
  rw [groupSolution, Solution.restrict_of_mem (mem_outputs hk), documentSolution_output h hk]

/-- The document of the group has its key. -/
theorem memberSolution_of_mem {v : Variable} (hv : v ∈ outputs keys) :
    memberSolution subject keys v = groupSolution subject keys v := by
  rw [memberSolution, groupSolution, Solution.restrict_of_mem hv,
    Solution.restrict_of_mem (List.mem_append_left _ hv)]

theorem memberSolution_root {g : Graph} (h : IsStored m g subject keys) :
    memberSolution subject keys rootVariable = some subject := by
  rw [memberSolution,
    Solution.restrict_of_mem (List.mem_append_right _ (List.mem_singleton_self _)),
    documentSolution_root h]

theorem memberSolution_var {g : Graph} (h : IsStored m g subject keys) (hk : k.IsOf m) {role : Role}
    (hne : role ≠ .output) :
    memberSolution subject keys (k.var role) = none := by
  refine Solution.restrict_of_notMem ?_
  rw [List.mem_append, List.mem_singleton, not_or]
  exact ⟨h.var_notMem_outputs hk hne, var_ne_root hk⟩

/-- The values of a key go with the document. -/
theorem compatible_valueSolution {g : Graph} (h : IsStored m g subject keys) (hk : k.IsOf m)
    (t : Term) : (memberSolution subject keys).Compatible (k.valueSolution subject t) := by
  have hmember {role : Role} (hne : role ≠ .output) :
      memberSolution subject keys (k.var role) = none := memberSolution_var h hk hne
  intro v x y hx hy
  by_cases henc : v = k.var .encoded
  · rw [henc, hmember (by decide)] at hx
    cases hx
  by_cases hnode : v = k.var .node
  · rw [hnode, hmember (by decide)] at hx
    cases hx
  rw [valueSolution, Solution.set_of_ne _ henc, Solution.set_of_ne _ hnode] at hy
  by_cases hroot : v = rootVariable
  · subst hroot
    rw [memberSolution_root h, Option.some.injEq] at hx
    rw [Solution.set_self, Option.some.injEq] at hy
    rw [← hx, hy]
  · rw [Solution.set_of_ne _ hroot] at hy
    cases hy

/-- The solutions that a packed column is reduced over. -/
noncomputable def reducedSolutions (c : Context) (m : Model) (subject : Term)
    (keys : List StoredKey) (k : StoredKey) : Solutions :=
  leftJoin {memberSolution subject keys} ((groupPattern (k.values m)).eval c)

theorem of_mem_reducedSolutions (h : IsStored m c.statements subject keys) (hc : c.given = .empty)
    (hk : k ∈ manys keys) (hμ : μ ∈ reducedSolutions c m subject keys k) :
    μ = memberSolution subject keys ∨
      ∃ t ∈ k.terms, μ = (memberSolution subject keys).merge (k.valueSolution subject t) := by
  rcases Solutions.mem_leftJoin.mp hμ with hjoin | ⟨hmem, -⟩
  · obtain ⟨δ, hδ, ν, hν, -, rfl⟩ := Solutions.mem_join.mp hjoin
    obtain ⟨t, ht, rfl⟩ := (mem_eval_values h hc hk).mp hν
    rw [Multiset.mem_singleton.mp hδ]
    exact .inr ⟨t, ht, rfl⟩
  · exact .inl (Multiset.mem_singleton.mp hmem)

theorem mem_reducedSolutions (h : IsStored m c.statements subject keys) (hc : c.given = .empty)
    (hk : k ∈ manys keys) (ht : t ∈ k.terms) :
    (memberSolution subject keys).merge (k.valueSolution subject t) ∈
      reducedSolutions c m subject keys k :=
  Solutions.mem_leftJoin.mpr (.inl (Solutions.mem_join.mpr ⟨_, Multiset.mem_singleton_self _, _,
    (mem_eval_values h hc hk).mpr ⟨t, ht, rfl⟩,
    compatible_valueSolution h (h.of_mem_manys k hk) t, rfl⟩))

/-- All of them have the key of the group. -/
theorem restrict_reducedSolutions (h : IsStored m c.statements subject keys) (hc : c.given = .empty)
    (hk : k ∈ manys keys) (hμ : μ ∈ reducedSolutions c m subject keys k) :
    μ.restrict (outputs keys) = groupSolution subject keys := by
  funext v
  by_cases hv : v ∈ outputs keys
  · rw [Solution.restrict_of_mem hv, ← memberSolution_of_mem hv]
    rcases of_mem_reducedSolutions h hc hk hμ with rfl | ⟨t, -, rfl⟩
    · rfl
    · obtain ⟨k', hk', rfl⟩ := List.mem_map.mp hv
      rw [Solution.merge, memberSolution_of_mem hv, groupSolution_output h hk', Option.some_or]
  · rw [Solution.restrict_of_notMem hv, groupSolution, Solution.restrict_of_notMem hv]

/-- They bind the encoded variable to the encoded texts of the terms. -/
theorem exists_encoded_iff (h : IsStored m c.statements subject keys) (hc : c.given = .empty)
    (hk : k ∈ manys keys) :
    (∃ μ ∈ reducedSolutions c m subject keys k, μ (k.var .encoded) = some t) ↔
      ∃ e ∈ k.encodings, t = .literal (.plain e) := by
  have hmember : memberSolution subject keys (k.var .encoded) = none :=
    memberSolution_var h (h.of_mem_manys k hk) nofun
  have hmerge (y : Term) : (memberSolution subject keys).merge (k.valueSolution subject y)
      (k.var .encoded) = some (encodedTerm y) := by
    rw [Solution.merge, hmember, Option.none_or, valueSolution, Solution.set_self]
  simp only [encodings, List.mem_dedup, List.mem_map]
  constructor
  · rintro ⟨μ, hμ, ht⟩
    rcases of_mem_reducedSolutions h hc hk hμ with rfl | ⟨y, hy, rfl⟩
    · rw [hmember] at ht
      cases ht
    · rw [hmerge, Option.some.injEq] at ht
      exact ⟨_, ⟨y, hy, rfl⟩, ht.symm⟩
  · rintro ⟨_, ⟨y, hy, rfl⟩, rfl⟩
    exact ⟨_, mem_reducedSolutions h hc hk hy, hmerge y⟩

/-- The distinct values of a packed column are its encoded texts. -/
theorem dedup_filterMap_encoded [DecidableEq Term] (h : IsStored m c.statements subject keys)
    (hc : c.given = .empty) (hk : k ∈ manys keys) :
    ((reducedSolutions c m subject keys k).filterMap fun μ => μ (k.var .encoded)).dedup =
      (k.encodings : Multiset String).map fun e => .literal (.plain e) := by
  have hnodup : ((k.encodings : Multiset String).map fun e => Term.literal (.plain e)).Nodup := by
    refine Multiset.Nodup.map (fun e e' he => ?_) (Multiset.coe_nodup.mpr (List.nodup_dedup _))
    exact Literal.plain.inj (Term.literal.inj he)
  refine (Multiset.Nodup.ext (Multiset.nodup_dedup _) hnodup).mpr fun t => ?_
  rw [Multiset.mem_dedup, Multiset.mem_filterMap, exists_encoded_iff h hc hk, Multiset.mem_map]
  simp only [Multiset.mem_coe, eq_comm]

/-- A packed column concatenates the encoded texts of its terms. -/
theorem eval_aggregate (h : IsStored m c.statements subject keys) (hc : c.given = .empty)
    (hk : k ∈ manys keys) {c' : Context} (hc' : c'.given = .empty) :
    (k.reduced m).aggregate.eval c' (k.var .packed) (groupSolution subject keys)
        (reducedSolutions c m subject keys k) =
      some (rawTerm c'.store subject keys k) := by
  have hvalues : (Expr.var (k.var .encoded)).eval c' = fun μ : Solution => μ (k.var .encoded) := by
    funext μ
    exact Context.value?_eq hc' μ _
  have htexts : ((k.encodings : Multiset String).map fun e => Term.literal (.plain e)).filterMap
      Term.text? = k.encodings := by
    rw [Multiset.filterMap_map]
    exact Multiset.filterMap_some _
  rw [reduced, Sparql.Aggregate.eval, if_pos rfl, hvalues, dedup_filterMap_encoded h hc hk,
    Sparql.Reduction.apply, htexts]
  rfl

/-- The wrapped text of a packed column. -/
theorem eval_wrapping {texts : List String} (hc : c.given = .empty)
    (hraw : μ (k.var .packed) =
      some (.literal (.plain (concatenated Packing.values.separator texts)))) :
    k.wrapping.expr.eval c μ = some (.literal (.plain (packedValues texts))) :=
  Wrapping.eval_expr (w := k.wrapping) hc hraw

/-! ## The rows of a grouped selection -/

section Grouped

theorem eval_documents_ofKeys (h : IsStored m (data.graph graph) subject keys) :
    (Selection.ofKeys m graph keys).documents.eval { store := store, data := data } =
      {documentSolution subject keys} :=
  (Selection.eval_inGraph _ _ store data).trans
    (eval_documents (c := { store := store, data := data, graph := graph }) h rfl graph)

theorem groupBy_ofKeys (hmany : keys.any (·.isMany) = true) :
    (Selection.ofKeys m graph keys).groupBy = outputs keys :=
  if_pos hmany

theorem outputs_ne_nil (hne : singles keys ≠ []) : outputs keys ≠ [] :=
  fun he => hne (List.map_eq_nil_iff.mp he)

theorem manys_cons (k : StoredKey) (rest : List StoredKey) :
    manys (k :: rest) = if k.isMany then k :: manys rest else manys rest := by
  rw [manys, List.filter_cons]
  cases k.isMany <;> rfl

theorem filterMap_reduced? (keys : List StoredKey) :
    (keys.map (·.column m)).filterMap Column.reduced? = (manys keys).map (·.reduced m) := by
  induction keys with
  | nil => rfl
  | cons k rest ih =>
    rw [List.map_cons, List.filterMap_cons, ih, manys_cons]
    cases hmany : k.isMany <;> simp [column, Column.reduced?, reduced, hmany]

theorem filterMap_wrapping? (keys : List StoredKey) :
    (keys.map (·.column m)).filterMap Column.wrapping? = (manys keys).map wrapping := by
  induction keys with
  | nil => rfl
  | cons k rest ih =>
    rw [List.map_cons, List.filterMap_cons, ih, manys_cons]
    cases hmany : k.isMany <;> simp [column, Column.wrapping?, wrapping, hmany]

variable (h : IsStored m (data.graph graph) subject keys) (hmany : keys.any (·.isMany) = true)
  (hne : singles keys ≠ [])
include h hmany hne

/-- A reduction has one row, with the key of the group. -/
theorem eval_reduction (hk : k ∈ manys keys) :
    ((Selection.ofKeys m graph keys).reduction (k.reduced m)).eval
        { store := store, data := data } =
      {(groupSolution subject keys).set (k.var .packed) (rawTerm store subject keys k)} := by
  classical
  set c : Context := { store := store, data := data, graph := graph }
  have hvalues : (k.reduced m).values.isEmpty = false := by
    simp [reduced, values]
  have hinner : (Pattern.leftJoin (.distinct (.project (Selection.ofKeys m graph keys).documents
      (outputs keys ++ [rootVariable])))
      ((Selection.ofKeys m graph keys).inGraph (groupPattern (k.reduced m).values))).eval
        { store := store, data := data } = reducedSolutions c m subject keys k := by
    rw [Pattern.eval, Pattern.eval, Pattern.eval, eval_documents_ofKeys h,
      Selection.eval_inGraph, Multiset.map_singleton, Multiset.dedup_singleton]
    rfl
  have hkey : ∀ μ ∈ reducedSolutions c m subject keys k,
      μ.restrict (outputs keys) = groupSolution subject keys :=
    fun μ hμ => restrict_reducedSolutions (c := c) h rfl hk hμ
  rw [Selection.reduction, groupBy_ofKeys hmany]
  simp only [hvalues, Bool.false_eq_true, if_false]
  rw [Pattern.eval_group_of_restrict (outputs_ne_nil hne) (hinner ▸ Solutions.leftJoin_ne_zero _)
    (hinner.symm ▸ hkey), hinner]
  exact congrArg _ (Sparql.Aggregate.bindAll_singleton (eval_aggregate (c := c) h rfl hk rfl))

/-- Without aggregates of documents there is one row for the group. -/
theorem eval_groups :
    (Selection.ofKeys m graph keys).groups.eval { store := store, data := data } =
      {groupSolution subject keys} := by
  have haggregates :
      (Selection.ofKeys m graph keys).columns.filterMap Column.ofDocuments? = [] := by
    refine List.filterMap_eq_nil_iff.mpr fun col hcol => ?_
    obtain ⟨k', -, rfl⟩ := List.mem_map.mp hcol
    rw [column]
    split <;> rfl
  have hsome : (outputs keys).isEmpty = false :=
    List.isEmpty_eq_false_iff.mpr (outputs_ne_nil hne)
  have hdocuments : (Selection.ofKeys m graph keys).documents.eval
      { store := store, data := data } = {documentSolution subject keys} :=
    eval_documents_ofKeys h
  have hkey : ∀ μ ∈ ({documentSolution subject keys} : Solutions),
      μ.restrict (outputs keys) = groupSolution subject keys :=
    fun μ hμ => by rw [Multiset.mem_singleton.mp hμ, groupSolution]
  rw [Selection.groups, haggregates, groupBy_ofKeys hmany]
  simp only [hsome, Bool.and_false, Bool.false_eq_true, if_false]
  rw [Pattern.eval_group_of_restrict (outputs_ne_nil hne)
    (hdocuments ▸ Multiset.singleton_ne_zero _) (hdocuments.symm ▸ hkey), Sparql.Aggregate.bindAll]

omit hmany hne in
theorem groupSolution_packed (hk : k ∈ manys keys) :
    groupSolution subject keys (k.var .packed) = none :=
  Solution.restrict_of_notMem (h.var_notMem_outputs (h.of_mem_manys k hk) nofun)

/-- The joined reductions have one row. -/
theorem eval_joined :
    (((Selection.ofKeys m graph keys).columns.filterMap Column.reduced?).foldl
      (fun p r => p.joined ((Selection.ofKeys m graph keys).reduction r))
      (Selection.ofKeys m graph keys).groups).eval { store := store, data := data } =
      {(groupSolution subject keys).setAll
        ((manys keys).map fun k => (k.var .packed, rawTerm store subject keys k))} := by
  have hcolumns : (Selection.ofKeys m graph keys).columns.filterMap Column.reduced? =
      (manys keys).map (·.reduced m) := filterMap_reduced? keys
  rw [hcolumns, List.foldl_map, eval_foldl_joined, eval_groups h hmany hne]
  refine Solutions.foldl_eq_setAll_map (nodup_vars h.of_mem_manys h.nodup_manys)
    (fun k hk => groupSolution_packed h hk) fun k hk ν hν hfree => ?_
  rw [eval_reduction h hmany hne hk]
  refine Solutions.join_set (fun v t ht => ?_) hfree
  rw [hν v fun hv => ?_, ht]
  obtain ⟨k', hk', rfl⟩ := List.mem_map.mp hv
  rw [groupSolution_packed h hk'] at ht
  cases ht

/-- The rows before they are projected: one, with the packed columns. -/
theorem eval_grouped :
    (Selection.ofKeys m graph keys).grouped.eval { store := store, data := data } =
      {((groupSolution subject keys).setAll
          ((manys keys).map fun k => (k.var .packed, rawTerm store subject keys k))).setAll
        ((manys keys).map fun k => (k.var .output, packedTerm store subject keys k))} := by
  have hcolumns : (Selection.ofKeys m graph keys).columns.filterMap Column.wrapping? =
      (manys keys).map wrapping := filterMap_wrapping? keys
  have hdistinct : ((manys keys).map (·.var .packed)).Nodup :=
    nodup_vars h.of_mem_manys h.nodup_manys
  have hraw : ∀ k ∈ manys keys, (groupSolution subject keys).setAll
      ((manys keys).map fun k => (k.var .packed, rawTerm store subject keys k)) (k.var .packed) =
        some (rawTerm store subject keys k) := fun k hk => by
    refine Solution.setAll_of_mem ?_ (List.mem_map.mpr ⟨k, hk, rfl⟩)
    rw [List.map_map]
    exact hdistinct
  rw [Selection.grouped, hcolumns, eval_foldl_around, eval_joined h hmany hne, List.foldl_map]
  refine Solutions.foldl_eq_setAll_map (nodup_vars h.of_mem_manys h.nodup_manys)
    (fun k hk => ?_) fun k hk ν hν _ => ?_
  · rw [Solution.setAll_of_notMem, groupSolution,
      Solution.restrict_of_notMem fun hv => h.disjoint_outputs hv (List.mem_map_of_mem hk)]
    rw [List.map_map]
    exact var_notMem_map (h.of_mem_manys k hk) h.of_mem_manys nofun
  · have hother : k.var .packed ∉ (manys keys).map (·.var .output) :=
      var_notMem_map (h.of_mem_manys k hk) h.of_mem_manys nofun
    have hpacked : ν (k.var .packed) = some (rawTerm store subject keys k) := by
      rw [hν _ hother, hraw k hk]
    rw [Multiset.map_singleton, Solution.extended, eval_wrapping rfl hpacked]
    rfl

end Grouped

/-! ## The row -/

/-- Whether a term is what the column of a key has. -/
def HasColumn (k : StoredKey) (t : Term) : Prop :=
  if k.isMany then
    ∃ texts : List String, texts.Nodup ∧
      (∀ text, text ∈ texts ↔ ∃ t ∈ k.terms, t.lexical = text) ∧
      t = .literal (.plain (packedValues (texts.map Percent.encode)))
  else k.terms = [t]

/-- The encoded texts of a key are those of some distinct texts. -/
theorem hasColumn_packedTerm (hk : k ∈ manys keys) :
    k.HasColumn (packedTerm store subject keys k) := by
  have hperm : (arranged store subject keys k).Perm k.encodings :=
    Multiset.coe_eq_coe.mp (store.arrange_perm _ _ _)
  have hencoded : arranged store subject keys k ∈ Set.range (List.map Percent.encode) := by
    rw [Set.range_list_map]
    intro e he
    obtain ⟨t, -, rfl⟩ := List.mem_map.mp (List.mem_dedup.mp (hperm.subset he))
    exact ⟨t.lexical, rfl⟩
  obtain ⟨texts, htexts⟩ := hencoded
  rw [HasColumn, if_pos (mem_manys.mp hk).2]
  refine ⟨texts, .of_map Percent.encode ?_, fun text => ?_, by rw [packedTerm, htexts]⟩
  · rw [htexts, hperm.nodup_iff]
    exact List.nodup_dedup _
  · rw [← List.mem_map_of_injective fun _ _ => Text.Percent.encode_injective, htexts,
      hperm.mem_iff, encodings, List.mem_dedup, List.mem_map]
    exact exists_congr fun t => and_congr_right fun _ =>
      ⟨fun he => Text.Percent.encode_injective he, fun he => by rw [he]⟩

/-- The columns of keys are named after them. -/
theorem carriers_ofKeys (m : Model) (graph : Option Iri) (keys : List StoredKey) :
    (Selection.ofKeys m graph keys).columns.map Column.carrier = keys.map (·.var .output) := by
  change (keys.map (·.column m)).map Column.carrier = _
  rw [List.map_map]
  refine List.map_congr_left fun k _ => ?_
  rw [Function.comp_apply, column]
  split <;> rfl

/-- In a graph with one document, the query for some of its keys has one row. -/
theorem eval_ofKeys (h : IsStored m (data.graph graph) subject keys) (hne : singles keys ≠ []) :
    ∃ row : Solution,
      (Selection.ofKeys m graph keys).pattern.eval { store := store, data := data } = {row} ∧
        ∀ k ∈ keys, ∃ t, row (k.var .output) = some t ∧ k.HasColumn t := by
  have hpattern : (Selection.ofKeys m graph keys).pattern =
      .project (if keys.any (·.isMany) then (Selection.ofKeys m graph keys).grouped
        else (Selection.ofKeys m graph keys).documents) (keys.map (·.var .output)) := by
    rw [← carriers_ofKeys m graph keys, ← any_isAggregated (m := m)]
    rfl
  rw [hpattern, Pattern.eval]
  by_cases hmany : keys.any (·.isMany) = true
  · rw [if_pos hmany, eval_grouped h hmany hne, Multiset.map_singleton]
    refine ⟨_, rfl, fun k hk => ?_⟩
    rw [Solution.restrict_of_mem (List.mem_map_of_mem hk)]
    cases hkind : k.isMany with
    | true =>
      have hk' : k ∈ manys keys := mem_manys.mpr ⟨hk, hkind⟩
      refine ⟨_, Solution.setAll_of_mem ?_ (List.mem_map.mpr ⟨k, hk', rfl⟩),
        hasColumn_packedTerm hk'⟩
      rw [List.map_map]
      exact nodup_vars h.of_mem_manys h.nodup_manys
    | false =>
      have hk' : k ∈ singles keys := mem_singles.mpr ⟨hk, hkind⟩
      refine ⟨k.term, ?_, ?_⟩
      · rw [Solution.setAll_of_notMem, Solution.setAll_of_notMem, groupSolution_output h hk']
        · rw [List.map_map]
          exact var_notMem_map (h.of_mem_singles k hk') h.of_mem_manys nofun
        · rw [List.map_map]
          exact fun hv => h.disjoint_outputs (mem_outputs hk') hv
      · rw [HasColumn, hkind, if_neg Bool.false_ne_true, h.terms_eq hk']
  · have hone : ∀ k ∈ keys, k ∈ singles keys := fun k hk =>
      mem_singles.mpr ⟨hk, Bool.eq_false_iff.mpr fun hkind =>
        hmany (List.any_eq_true.mpr ⟨k, hk, hkind⟩)⟩
    rw [if_neg hmany, eval_documents_ofKeys h, Multiset.map_singleton]
    refine ⟨_, rfl, fun k hk => ⟨k.term, ?_, ?_⟩⟩
    · rw [Solution.restrict_of_mem (List.mem_map_of_mem hk), documentSolution_output h (hone k hk)]
    · rw [HasColumn, (mem_singles.mp (hone k hk)).2, if_neg Bool.false_ne_true,
        h.terms_eq (hone k hk)]

end StoredKey

end DocGraph
