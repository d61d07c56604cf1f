import DocGraph.Proofs.Compile.VariableRules
import DocGraph.Proofs.Select.OneGraph
import DocGraph.Proofs.Update.Replace

/-!
# One graph

Nothing escapes the graph that documents are in (`stays_in_configured_graph`). A query that is
compiled matches statements under one `GRAPH` node of that graph, wherever its pattern does so,
and the updates of a document delete, insert and match nothing in another graph. So the rows of
a query depend on that graph only (`Selection.eval_pattern_congr`), and an update leaves all other
graphs as they are (`Update.graph_apply_of_ne`) and depends on none of them
(`Update.graph_apply_congr`).
-/

namespace DocGraph

open Rdf (Dataset GroundQuad Iri Term Variable)
open Sparql (Expr Pattern Quad Solutions Store Update instances)

variable {s : Schema} {model : String} {q : Spec} {g : Option Iri} {es : List Element}

/-! ## Elements -/

theorem Element.IsTriple.staysIn {e : Element} (h : e.IsTriple) : e.StaysIn g := by
  cases e with
  | triple | inverse =>
    rw [Element.StaysIn]
    trivial
  | _ => exact h.elim

/-- Elements that ask something of the document name no graph. -/
theorem Asks.elementsStayIn (h : Asks es) : ElementsStayIn g es := by
  induction h with
  | nil =>
    rw [ElementsStayIn]
    trivial
  | append _ _ hes hfs => exact elementsStayIn_append hes hfs
  | triples h _ => exact elementsStayIn_iff.mpr fun e he => (h e he).staysIn
  | filter h =>
    rw [elementsStayIn_iff, List.forall_mem_singleton, Element.StaysIn]
    exact h.staysIn
  | @existence es negated _ h =>
    have hmatch : (Expr.hasMatch (groupPattern es)).StaysIn g g.toList := by
      rw [Expr.StaysIn]
      exact staysIn_groupPattern h
    rw [FilterScope.existence, elementsStayIn_iff, List.forall_mem_singleton, Element.StaysIn]
    split
    · rwa [Expr.StaysIn]
    · exact hmatch
  | optional _ h =>
    rwa [elementsStayIn_iff, List.forall_mem_singleton, Element.StaysIn]
  | union _ h =>
    rw [elementsStayIn_iff, List.forall_mem_singleton, Element.StaysIn]
    exact branchesStayIn_iff.mpr h

theorem AsksAndBinds.elementsStayIn (h : AsksAndBinds es) : ElementsStayIn g es := by
  obtain ⟨asked, bound, rfl, hasked, hbound⟩ := h
  refine elementsStayIn_append hasked.elementsStayIn (elementsStayIn_iff.mpr fun e he => ?_)
  obtain ⟨v, value, rfl, hvalue⟩ := hbound e he
  rw [Element.StaysIn]
  exact hvalue.staysIn

/-! ## Queries -/

namespace Selection

variable {options : CompileOptions} {sel : Selection}

/-- The parts of a selection that is compiled stay in its graph. -/
theorem staysInGraph_of_compile (hs : s.WellFormed) (h : q.compile s options model = .ok sel) :
    sel.StaysInGraph := by
  obtain ⟨q', classUri, p, filters, orderBy, hvalid, hnormal, -, hp, hfilters, rfl⟩ :=
    Spec.compile_eq_ok h
  have hnames := Spec.isFieldName_of_mem_sources hvalid hnormal
  refine ⟨?_, fun v a hmem => ?_, fun r hr => ?_⟩
  · have hasked := ((Projection.asks_required hs hp classUri).append
      (Spec.asks_filters hs hfilters)).append (Projection.asks_optionals hs hp)
    exact AsksAndBinds.elementsStayIn
      ⟨_, p.bindings, rfl, hasked, Projection.bindings_cases hs hp hnames⟩
  · exact Projection.isPatternFree_count hs hp hnames hmem
  · obtain ⟨name, c, hcolumn, hreduced⟩ := Projection.exists_reduced hs hp hnames hr
    obtain ⟨haggregate, hvalues⟩ := hcolumn.asks r hreduced
    exact ⟨haggregate, hvalues.elementsStayIn⟩

/-- The pattern of a query stays in the graph of its documents. -/
theorem staysIn_of_compile (hs : s.WellFormed) (h : q.compile s options model = .ok sel) :
    sel.pattern.StaysIn options.graph [] := by
  rw [← Spec.graph_of_compile h]
  exact (staysInGraph_of_compile hs h).pattern

/-- The rows of a query depend on the graph of its documents only. -/
theorem eval_pattern_congr {d : SchemaDefinition} (hd : d.build = .ok s)
    (h : q.compile s options model = .ok sel) (store : Store) {data data' : Dataset}
    (hdata : data.graph options.graph = data'.graph options.graph) :
    sel.pattern.eval { store := store, data := data } =
      sel.pattern.eval { store := store, data := data' } :=
  Pattern.eval_congr sel.pattern [] { store := store, data := data' }
    (staysIn_of_compile (SchemaDefinition.build_wellFormed hd) h) rfl hdata

end Selection

/-! ## Updates -/

namespace Sparql

/-- Whether an update deletes and inserts in a graph only, for what is matched in it. -/
def Update.StaysIn (g : Option Iri) : Update → Prop
  | .insertData quads => ∀ q ∈ quads, q.graph = g
  | .modify deleted inserted p =>
    (∀ q ∈ deleted, q.graph = g) ∧ (∀ q ∈ inserted, q.graph = g) ∧ p.StaysIn g []

theorem graph_of_mem_instances {ss : Solutions} {templates : List Quad} {q : GroundQuad}
    (h : ∀ t ∈ templates, t.graph = g) (hq : q ∈ instances ss templates) : q.graph = g := by
  obtain ⟨μ, -, t, ht, hinstance⟩ := mem_instances.mp hq
  simp only [Quad.instance?, Option.bind_eq_bind, Option.bind_eq_some_iff, Option.pure_def,
    Option.some.injEq] at hinstance
  obtain ⟨subject, -, predicate, -, object, -, rfl⟩ := hinstance
  exact h t ht

variable {u : Update} {store : Store} {data data' : Dataset}

/-- An update leaves the other graphs as they are. -/
theorem Update.graph_apply_of_ne (h : u.StaysIn g) {name : Option Iri} (hne : name ≠ g) :
    (u.apply store data).graph name = data.graph name := by
  have hothers {ss : Solutions} {templates : List Quad} (ht : ∀ t ∈ templates, t.graph = g)
      (x : Rdf.Statement) : ⟨x, name⟩ ∉ instances ss templates :=
    fun hx => hne (graph_of_mem_instances ht hx)
  ext x
  rw [Dataset.mem_graph, Dataset.mem_graph]
  cases u with
  | insertData quads => rw [mem_apply_insertData, or_iff_left (hothers h x)]
  | modify deleted inserted p =>
    rw [mem_apply_modify, or_iff_left (hothers h.2.1 x), and_iff_left (hothers h.1 x)]

/-- What an update makes of its graph depends on no other graph. -/
theorem Update.graph_apply_congr (h : u.StaysIn g) (hdata : data.graph g = data'.graph g) :
    (u.apply store data).graph g = (u.apply store data').graph g := by
  have hmem (x : Rdf.Statement) : ⟨x, g⟩ ∈ data ↔ ⟨x, g⟩ ∈ data' := by
    rw [← Dataset.mem_graph, hdata, Dataset.mem_graph]
  ext x
  rw [Dataset.mem_graph, Dataset.mem_graph]
  cases u with
  | insertData quads => rw [mem_apply_insertData, mem_apply_insertData, hmem]
  | modify deleted inserted p =>
    have hsolutions : p.eval { store := store, data := data } =
        p.eval { store := store, data := data' } :=
      Pattern.eval_congr p [] { store := store, data := data' } h.2.2 rfl hdata
    rw [mem_apply_modify, mem_apply_modify, hsolutions, hmem]

end Sparql

namespace Target

variable {t : Target} {d : Document} {u : Update}

theorem staysIn_inGraph {p : Pattern} (h : p.StaysIn t.graph t.graph.toList) :
    (t.inGraph p).StaysIn t.graph [] := by
  unfold inGraph
  cases hgraph : t.graph with
  | none =>
    rw [hgraph] at h
    exact h
  | some g =>
    rw [hgraph] at h
    dsimp only
    rw [Pattern.StaysIn]
    exact ⟨Option.some_ne_none g, h⟩

theorem staysIn_allStatements (subject : Iri) :
    (allStatements subject).StaysIn t.graph t.graph.toList := by
  rw [allStatements, Pattern.StaysIn]
  exact .inr rfl

theorem graph_of_mem_statementQuads {identity : Identity} {subject : Iri} {quads : List Quad}
    (h : t.statementQuads identity subject d = .ok quads) : ∀ q ∈ quads, q.graph = t.graph := by
  obtain ⟨statements, -, h⟩ := Outcome.bind_eq_ok.mp h
  obtain rfl := Except.ok.inj h
  intro q hq
  obtain ⟨statement, -, rfl⟩ := List.mem_map.mp hq
  rfl

theorem staysIn_save (h : t.save d = .ok u) : u.StaysIn t.graph := by
  obtain ⟨identity, -, h⟩ := Outcome.bind_eq_ok.mp h
  obtain ⟨subject, -, h⟩ := Outcome.bind_eq_ok.mp h
  obtain ⟨quads, hquads, h⟩ := Outcome.bind_eq_ok.mp h
  obtain rfl := Except.ok.inj h
  exact graph_of_mem_statementQuads hquads

theorem staysIn_replace (h : t.replace d = .ok u) : u.StaysIn t.graph := by
  obtain ⟨identity, -, h⟩ := Outcome.bind_eq_ok.mp h
  obtain ⟨subject, -, h⟩ := Outcome.bind_eq_ok.mp h
  obtain ⟨inserted, hinserted, h⟩ := Outcome.bind_eq_ok.mp h
  obtain rfl := Except.ok.inj h
  refine ⟨List.forall_mem_singleton.mpr rfl, graph_of_mem_statementQuads hinserted,
    staysIn_inGraph ?_⟩
  rw [Pattern.StaysIn]
  exact ⟨Pattern.staysIn_empty, staysIn_allStatements subject⟩

theorem staysIn_delete (h : t.delete d = .ok u) : u.StaysIn t.graph := by
  obtain ⟨identity, -, h⟩ := Outcome.bind_eq_ok.mp h
  obtain ⟨subject, -, h⟩ := Outcome.bind_eq_ok.mp h
  obtain rfl := Except.ok.inj h
  exact ⟨List.forall_mem_singleton.mpr rfl, nofun, staysIn_inGraph (staysIn_allStatements subject)⟩

end Target

/-- Nothing that is compiled against a built schema escapes the graph of the documents: in the
pattern of a query, at any depth, and in what the updates of a document delete, insert and
match. -/
theorem stays_in_configured_graph {d : SchemaDefinition} (hd : d.build = .ok s) :
    (∀ (model : String) (q : Spec) (options : CompileOptions) (sel : Selection),
      q.compile s options model = .ok sel → sel.pattern.StaysIn options.graph []) ∧
    ∀ (graph : Option Iri) (doc : Document) (u : Update),
      (⟨s, graph⟩ : Target).save doc = .ok u ∨ (⟨s, graph⟩ : Target).replace doc = .ok u ∨
        (⟨s, graph⟩ : Target).delete doc = .ok u → u.StaysIn graph := by
  refine ⟨fun model q options sel h => ?_, fun graph doc u h => ?_⟩
  · exact Selection.staysIn_of_compile (SchemaDefinition.build_wellFormed hd) h
  · rcases h with h | h | h
    · exact Target.staysIn_save h
    · exact Target.staysIn_replace h
    · exact Target.staysIn_delete h

/-- People with their nicknames, the name of their mentor if there is one, and the greatest age,
of those who have a mentor or whose age is not 5. -/
def Spec.ofMentored : Spec where
  fields :=
    [("mentor", .scalar (.ofText "?mentor.name")), ("nicknames", .array (.ofText "nicknames"))]
  filter := some (.or [.compare ⟨.ofText "mentor", .present, .null⟩,
    .not (FilterScope.ageOfFive .eq)])
  aggregates := [("oldest", ⟨.max, some (.ofText "age"), [], false⟩)]

/-- A person with a name. -/
def Document.carol : Document :=
  [("_id", .str "carol"), ("_type", .str "Person"), ("name", .str "Carol")]

theorem Spec.compile_ofMentored : ∃ sel,
    ofMentored.compile peopleSchema { graph := some staff } "Person" = .ok sel ∧
      sel.isGrouped = true ∧ sel.filters.isEmpty = false ∧ sel.optionals.isEmpty = false :=
  ⟨_, rfl, rfl, rfl, rfl⟩

theorem stays_in_configured_graph_staff :
    people.build = .ok peopleSchema ∧
      (∃ sel, Spec.ofMentored.compile peopleSchema { graph := some staff } "Person" = .ok sel ∧
        sel.isGrouped = true ∧ sel.filters.isEmpty = false ∧ sel.optionals.isEmpty = false ∧
        sel.pattern.StaysIn (some staff) []) ∧
      (∃ u, (⟨peopleSchema, some staff⟩ : Target).save Document.carol = .ok u ∧
        u.StaysIn (some staff)) ∧
      (∃ u, (⟨peopleSchema, some staff⟩ : Target).replace Document.carol = .ok u ∧
        u.StaysIn (some staff)) ∧
      ∃ u, (⟨peopleSchema, some staff⟩ : Target).delete Document.carol = .ok u ∧
        u.StaysIn (some staff) := by
  obtain ⟨hqueries, hupdates⟩ := stays_in_configured_graph people_build
  obtain ⟨sel, hsel, hgrouped, hfilters, hoptionals⟩ := Spec.compile_ofMentored
  exact ⟨people_build,
    ⟨sel, hsel, hgrouped, hfilters, hoptionals, hqueries "Person" Spec.ofMentored _ sel hsel⟩,
    ⟨_, rfl, hupdates (some staff) Document.carol _ (.inl rfl)⟩,
    ⟨_, rfl, hupdates (some staff) Document.carol _ (.inr (.inl rfl))⟩,
    ⟨_, rfl, hupdates (some staff) Document.carol _ (.inr (.inr rfl))⟩⟩

end DocGraph
