import DocGraph.Proofs.Column.Packed
import DocGraph.Proofs.Compile.Keys
import DocGraph.Proofs.Select.Extend
import DocGraph.Proofs.Sparql.Bindings
import DocGraph.Proofs.Sparql.Tests

/-!
# The document pattern of some keys

In a graph with the statements about one document, the document pattern of some of its
keys has one solution (`eval_documents`): the document itself, the node that each key
with one value leads to, and its column.
-/

namespace DocGraph

open Rdf (Graph Iri Term Variable rdfType)
open Sparql (Context Expr Node Solution Solutions)

namespace StoredKey

/-- The term of a key with one value. -/
def term (k : StoredKey) : Term :=
  k.terms.headD (.blank k.name)

/-- Whether a graph holds one instance of a model, with the terms of some keys. -/
structure IsStored (m : Model) (g : Graph) (subject : Term) (keys : List StoredKey) : Prop where
  isOf : ∀ k ∈ keys, k.IsOf m
  nodup_names : (keys.map name).Nodup
  class_iff : ∀ x, ⟨x, rdfType, .iri m.classUri⟩ ∈ g ↔ x = subject
  statement_iff : ∀ k ∈ keys, ∀ p, k.target = .property p → ∀ x y,
    ⟨x, p.predicate, y⟩ ∈ g ↔ x = subject ∧ y ∈ k.terms
  identity : ∀ k ∈ keys, k.target = .identity → k.terms = [subject]
  type : ∀ k ∈ keys, k.target = .type → k.terms = [.iri m.classUri]
  single : ∀ k ∈ keys, k.isMany = false → ∃ t, k.terms = [t]
  ne_blank : ∀ k ∈ keys, ∀ t ∈ k.terms, ∀ name, t ≠ .blank name

/-- What the hop of a key with one value binds. -/
def nodeBindings (k : StoredKey) : List (Variable × Term) :=
  match k.target with
  | .property _ => [(k.var .node, k.term)]
  | _ => []

/-- The variables that the document pattern binds on the way to the columns. -/
def nodeVariables (keys : List StoredKey) : List Variable :=
  ((singles keys).flatMap nodeBindings).map Prod.fst

/-- The document and the nodes that its keys with one value lead to. -/
def nodeSolution (subject : Term) (keys : List StoredKey) : Solution :=
  (Solution.empty.set rootVariable subject).setAll ((singles keys).flatMap nodeBindings)

/-- The solution of the document pattern. -/
def documentSolution (subject : Term) (keys : List StoredKey) : Solution :=
  (nodeSolution subject keys).setAll ((singles keys).map fun k => (k.var .output, k.term))

variable {m : Model} {c : Context} {g : Graph} {subject : Term} {keys : List StoredKey}
  {k k' : StoredKey} {role role' : Role} {ν : Solution}

/-! ## Variables -/

theorem var_injective (hk : k.IsOf m) (hk' : k'.IsOf m) (h : k.var role = k'.var role') :
    role = role' ∧ k.name = k'.name := by
  obtain ⟨hrole, hname⟩ := variableName_injective (.ofKey hk.isFieldSegment)
    (.ofKey hk'.isFieldSegment) (Variable.mk.inj h)
  exact ⟨hrole, (List.cons.inj hname).1⟩

theorem var_ne_root (hk : k.IsOf m) : k.var role ≠ rootVariable :=
  variableName_ne_root (.ofKey hk.isFieldSegment) (List.cons_ne_nil _ _)

/-- Variables of different roles are different. -/
theorem var_notMem_map (hk : k.IsOf m) (hkeys : ∀ k ∈ keys, k.IsOf m) (hne : role ≠ role') :
    k.var role ∉ keys.map (·.var role') := fun h => by
  obtain ⟨k', hk', he⟩ := List.mem_map.mp h
  exact hne (var_injective (hkeys k' hk') hk he).1.symm

theorem root_notMem_map (hkeys : ∀ k ∈ keys, k.IsOf m) :
    rootVariable ∉ keys.map (·.var role) := fun h => by
  obtain ⟨k, hk, he⟩ := List.mem_map.mp h
  exact var_ne_root (hkeys k hk) he

theorem nodup_vars (hkeys : ∀ k ∈ keys, k.IsOf m) (hdistinct : (keys.map name).Nodup) :
    (keys.map (·.var role)).Nodup := by
  refine List.Nodup.map_on (fun k hk k' hk' h => ?_) (.of_map name hdistinct)
  exact List.inj_on_of_nodup_map hdistinct hk hk'
    (var_injective (hkeys k hk) (hkeys k' hk') h).2

theorem nodeVariables_sublist (keys : List StoredKey) :
    (nodeVariables keys).Sublist ((singles keys).map (·.var .node)) := by
  unfold nodeVariables
  induction singles keys with
  | nil => exact List.Sublist.slnil
  | cons k rest ih =>
    rw [List.flatMap_cons, List.map_append, List.map_cons]
    cases ht : k.target with
    | property p => simpa [nodeBindings, ht] using ih
    | _ => simpa [nodeBindings, ht] using ih.cons _

/-! ## Keys with one value -/

theorem mem_singles : k ∈ singles keys ↔ k ∈ keys ∧ k.isMany = false := by
  rw [singles, List.mem_filter, Bool.not_eq_true']

theorem mem_manys : k ∈ manys keys ↔ k ∈ keys ∧ k.isMany = true :=
  List.mem_filter

namespace IsStored

theorem of_mem_singles (h : IsStored m g subject keys) : ∀ k ∈ singles keys, k.IsOf m :=
  fun k hk => h.isOf k (mem_singles.mp hk).1

theorem of_mem_manys (h : IsStored m g subject keys) : ∀ k ∈ manys keys, k.IsOf m :=
  fun k hk => h.isOf k (mem_manys.mp hk).1

theorem nodup_singles (h : IsStored m g subject keys) : ((singles keys).map name).Nodup :=
  h.nodup_names.sublist (List.filter_sublist.map name)

theorem nodup_manys (h : IsStored m g subject keys) : ((manys keys).map name).Nodup :=
  h.nodup_names.sublist (List.filter_sublist.map name)

theorem terms_eq (h : IsStored m g subject keys) (hk : k ∈ singles keys) : k.terms = [k.term] := by
  obtain ⟨hmem, hone⟩ := mem_singles.mp hk
  obtain ⟨t, ht⟩ := h.single k hmem hone
  rw [term, ht, List.headD_cons]

theorem root_notMem_nodeVariables (h : IsStored m g subject keys) :
    rootVariable ∉ nodeVariables keys := fun hv =>
  root_notMem_map h.of_mem_singles ((nodeVariables_sublist keys).subset hv)

theorem nodup_nodeVariables (h : IsStored m g subject keys) : (nodeVariables keys).Nodup :=
  (nodup_vars h.of_mem_singles h.nodup_singles).sublist (nodeVariables_sublist keys)

end IsStored

/-! ## The solution of the document pattern -/

theorem nodeSolution_root (h : IsStored m g subject keys) :
    nodeSolution subject keys rootVariable = some subject :=
  (Solution.setAll_of_notMem h.root_notMem_nodeVariables).trans (Solution.set_self _ _ _)

theorem nodeSolution_node (h : IsStored m g subject keys) (hk : k ∈ singles keys) {p : Property}
    (hp : k.target = .property p) : nodeSolution subject keys (k.var .node) = some k.term := by
  refine Solution.setAll_of_mem h.nodup_nodeVariables (List.mem_flatMap.mpr ⟨k, hk, ?_⟩)
  rw [nodeBindings, hp]
  exact List.mem_singleton_self _

/-- Only the document and the nodes are bound before the columns. -/
theorem nodeSolution_var (h : IsStored m g subject keys) (hk : k.IsOf m) (hne : role ≠ .node) :
    nodeSolution subject keys (k.var role) = none := by
  have hv : k.var role ∉ nodeVariables keys := fun hv =>
    var_notMem_map hk h.of_mem_singles hne ((nodeVariables_sublist keys).subset hv)
  rw [nodeSolution, Solution.setAll_of_notMem hv, Solution.set_of_ne _ (var_ne_root hk)]
  rfl

theorem documentSolution_root (h : IsStored m g subject keys) :
    documentSolution subject keys rootVariable = some subject := by
  have hroot :
      rootVariable ∉ ((singles keys).map fun k => (k.var .output, k.term)).map Prod.fst := by
    rw [List.map_map]
    exact root_notMem_map h.of_mem_singles
  rw [documentSolution, Solution.setAll_of_notMem hroot, nodeSolution_root h]

theorem documentSolution_output (h : IsStored m g subject keys) (hk : k ∈ singles keys) :
    documentSolution subject keys (k.var .output) = some k.term := by
  refine Solution.setAll_of_mem ?_ (List.mem_map.mpr ⟨k, hk, rfl⟩)
  rw [List.map_map]
  exact nodup_vars h.of_mem_singles h.nodup_singles

/-- The node of a key stands for its term. -/
theorem eval_node (h : IsStored m g subject keys) (hc : c.given = .empty) (hk : k ∈ singles keys)
    (hν : ∀ v, (∀ k ∈ singles keys, v ≠ k.var .output) → ν v = nodeSolution subject keys v) :
    (Expr.ofNode (k.node m)).eval c ν = some k.term := by
  have hterms := h.terms_eq hk
  have hmem := (mem_singles.mp hk).1
  unfold node
  cases ht : k.target with
  | identity =>
    have hroot : ν rootVariable = some subject := by
      rw [hν _ fun k' hk' he => var_ne_root (h.of_mem_singles k' hk') he.symm,
        nodeSolution_root h]
    rw [h.identity k hmem ht, List.singleton_inj] at hterms
    rw [← hterms, rootNode, Expr.eval_ofNode_var, Context.value?_eq hc, hroot]
  | type =>
    rw [h.type k hmem ht, List.singleton_inj] at hterms
    rw [← hterms]
    rfl
  | property p =>
    have hnode : ν (k.var .node) = some k.term := by
      rw [hν _ fun k' hk' he => Role.noConfusion
        (var_injective (h.of_mem_singles k hk) (h.of_mem_singles k' hk') he).1,
        nodeSolution_node h hk ht]
    rw [Expr.eval_ofNode_var, Context.value?_eq hc, hnode]

/-- The hop of a key with one value has one match. -/
theorem extendAll_hop (h : IsStored m c.statements subject keys) (hc : c.given = .empty)
    (hk : k ∈ singles keys) (hroot : ν rootVariable = some subject)
    (hfree : ∀ v ∈ k.nodeBindings.map Prod.fst, ν v = none) :
    extendAll c k.hop {ν} = {ν.setAll k.nodeBindings} := by
  unfold hop nodeBindings at *
  cases ht : k.target with
  | identity => rfl
  | type => rfl
  | property p =>
    simp only [ht, List.map_cons, List.map_nil, List.forall_mem_singleton] at hfree
    change Sparql.Solutions.join {ν} (Sparql.Triple.solutions c ⟨rootNode, .iri p.predicate, _⟩) = _
    rw [Sparql.Solutions.singleton_join, Sparql.extensions_object (x := subject) (y := k.term)]
    · rfl
    · rw [rootNode, Node.value?, Context.value?_eq hc, hroot]
    · rw [Context.value?_eq hc, hfree]
    · intro z
      rw [h.statement_iff k (mem_singles.mp hk).1 p ht, h.terms_eq hk, List.mem_singleton]
      exact and_iff_right rfl

/-- The binding of a key with one value has its term. -/
theorem extendAll_binding (h : IsStored m c.statements subject keys) (hc : c.given = .empty)
    (hk : k ∈ singles keys)
    (hν : ∀ v, (∀ k ∈ singles keys, v ≠ k.var .output) → ν v = nodeSolution subject keys v) :
    extendAll c [k.binding m] {ν} = {ν.set (k.var .output) k.term} := by
  change Multiset.map (fun μ : Solution => μ.extended c _ _) {ν} = _
  rw [Multiset.map_singleton, Solution.extended, eval_node h hc hk hν]

theorem extendAll_anchor (h : IsStored m c.statements subject keys) (hc : c.given = .empty) :
    extendAll c [.statement rootNode rdfType (.term (.iri m.classUri))] {.empty} =
      {Solution.empty.set rootVariable subject} := by
  change Sparql.Solutions.join {.empty} (Sparql.Triple.solutions c ⟨rootNode, .iri rdfType, _⟩) = _
  rw [Sparql.Solutions.singleton_join]
  exact Sparql.extensions_subject (Context.value?_eq hc _ _) h.class_iff

/-- The hops of all keys with one value have one match. -/
theorem extendAll_hops (h : IsStored m c.statements subject keys) (hc : c.given = .empty) :
    extendAll c ((singles keys).flatMap (·.hop)) {Solution.empty.set rootVariable subject} =
      {nodeSolution subject keys} := by
  rw [extendAll_flatMap]
  refine Sparql.Solutions.foldl_eq_setAll h.nodup_nodeVariables (fun v hv => ?_)
    fun k hk ν hν hfree => ?_
  · have hne : v ≠ rootVariable := fun he => h.root_notMem_nodeVariables (he ▸ hv)
    rw [Solution.set_of_ne _ hne]
    rfl
  · refine extendAll_hop h hc hk ?_ hfree
    rw [hν _ h.root_notMem_nodeVariables, Solution.set_self]

/-- The bindings of all keys with one value have their terms. -/
theorem extendAll_bindings (h : IsStored m c.statements subject keys) (hc : c.given = .empty) :
    extendAll c ((singles keys).map (·.binding m)) {nodeSolution subject keys} =
      {documentSolution subject keys} := by
  rw [List.map_eq_flatMap, extendAll_flatMap]
  refine Sparql.Solutions.foldl_eq_setAll_map (nodup_vars h.of_mem_singles h.nodup_singles)
    (fun k hk => nodeSolution_var h (h.of_mem_singles k hk) nofun)
    fun k hk ν hν _ => extendAll_binding h hc hk fun v hv => hν v fun hmem => ?_
  obtain ⟨k', hk', rfl⟩ := List.mem_map.mp hmem
  exact hv k' hk' rfl

theorem filtersOf_hop (k : StoredKey) : filtersOf k.hop = [] := by
  unfold hop
  cases k.target <;> rfl

/-- The document pattern has one solution. -/
theorem eval_documents (h : IsStored m c.statements subject keys) (hc : c.given = .empty)
    (graph : Option Iri) :
    (groupPattern (Selection.ofKeys m graph keys).elements).eval c =
      {documentSolution subject keys} := by
  have helements : (Selection.ofKeys m graph keys).elements =
      [.statement rootNode rdfType (.term (.iri m.classUri))] ++
        ((singles keys).flatMap (·.hop) ++ (singles keys).map (·.binding m)) := by
    simp [Selection.elements, Selection.ofKeys]
  have hfilters : filtersOf (Selection.ofKeys m graph keys).elements = [] := by
    rw [helements, filtersOf_append, filtersOf_append, filtersOf_flatMap fun k _ => filtersOf_hop k,
      List.map_eq_flatMap, filtersOf_flatMap fun k _ => rfl]
    rfl
  rw [eval_groupPattern, groupSolutions, hfilters, passing_nil, helements, extendAll_append,
    extendAll_append, extendAll_anchor h hc, extendAll_hops h hc, extendAll_bindings h hc]

end StoredKey

end DocGraph
