import DocGraph.Proofs.Compile.Comparisons
import DocGraph.Proofs.Compile.Separate
import DocGraph.Proofs.Select.GroupRows

/-!
# Grouped queries

A grouped query with a plain column has one row for each key of its documents, and every
other column has its own value in it, so that no two columns multiply each other
(`Selection.grouped_of_compile`). The other columns of a query touch the value of a column
only through its documents: an equality on a path that is no column is a triple with the
constant, and one on a column is compared as a value
(`Selection.count_of_other_columns`).
-/

namespace DocGraph

open Rdf (Dataset Graph Term Variable rdfType)
open FilterScope (alice)
open Sparql (Context Expr Node Solution Solutions Store)

variable {s : Schema} {model name : String} {c : CompiledColumn}

/-! ## What the document pattern depends on -/

/-- The scalar fields among some fields. -/
def scalarFields (fields : Dict Selector) : Dict FieldPath :=
  fields.filterMap fun e => e.2.scalar?.map (e.1, ·)

/-- The fields of a query that are compiled to plain columns. -/
def Spec.plainFields (q : Spec) (s : Schema) (model : String) : Outcome (Dict FieldPath) := do
  return scalarFields (← q.normalized s model).fields

theorem scalarFields_cons (e : String × Selector) (fields : Dict Selector) :
    scalarFields (e :: fields) =
      (e.2.scalar?.map (e.1, ·)).toList ++ scalarFields fields := by
  rw [scalarFields, List.filterMap_cons]
  cases e.2.scalar? <;> rfl

namespace Projection

/-- The paths that the document pattern follows are those of the scalar fields. -/
theorem targets_eq_ok {fields : Dict Selector} {ts : List FieldTarget}
    (h : targets s model fields = .ok ts) :
    (scalarFields fields).mapM (fun e => do
      return FieldTarget.mk e.2 (← s.resolve model e.2.path)) = .ok ts := by
  rw [Outcome.mapM_eq_ok]
  induction fields generalizing ts with
  | nil =>
    rw [← Except.ok.inj h]
    exact .nil
  | cons e fields ih =>
    rw [scalarFields_cons]
    rcases targets_cons h with ⟨field, r, others, he, hr, hothers, rfl⟩ | ⟨hne, h⟩
    · rw [he]
      refine .cons ?_ (ih hothers)
      dsimp only
      rw [hr]
      rfl
    · have hnone : e.2.scalar? = none := by
        cases he : e.2 with
        | scalar field => exact absurd he (hne field)
        | array | objects => rfl
      rw [hnone]
      exact ih h

theorem filterMap_sources (q : Spec) :
    q.sources.filterMap (fun e => e.2.scalar?.map (e.1, ·)) = scalarFields q.fields := by
  have hnone : (q.aggregates.map fun e => (e.1, ColumnSource.aggregate e.2)).filterMap
      (fun e => e.2.scalar?.map (e.1, ·)) = [] := by
    refine List.filterMap_eq_nil_iff.mpr fun e he => ?_
    obtain ⟨a, -, rfl⟩ := List.mem_map.mp he
    rfl
  rw [Spec.sources, List.filterMap_append, hnone, List.append_nil, List.filterMap_map]
  rfl

/-- What the columns of some sources bind are the values of the scalar fields among these. -/
theorem bindings_of_sources {sources : List (String × ColumnSource)}
    {compiled : List CompiledColumn}
    (h : List.Forall₂ (fun e c => e.2.compile s model e.1 = .ok c) sources compiled) :
    ∃ plain, (sources.filterMap (fun e => e.2.scalar?.map (e.1, ·))).mapM
        (fun e => fieldColumn s model e.1 (.scalar e.2)) = .ok plain ∧
      compiled.filterMap (·.binding) = plain.filterMap (·.binding) := by
  simp only [Outcome.mapM_eq_ok]
  induction h with
  | nil => exact ⟨[], .nil, rfl⟩
  | @cons e c sources compiled hc hrest ih =>
    obtain ⟨plain, hplain, hbindings⟩ := ih
    obtain ⟨name, source⟩ := e
    cases hscalar : source.scalar? with
    | none =>
      refine ⟨plain, ?_, ?_⟩
      · simpa [List.filterMap_cons, hscalar] using hplain
      · rw [List.filterMap_cons, (isValue_of_compile hc hscalar).binding]
        exact hbindings
    | some field =>
      refine ⟨c :: plain, ?_, ?_⟩
      · simp only [List.filterMap_cons, hscalar, Option.map_some]
        refine .cons ?_ hplain
        rcases source with (field' | _ | _) | _
        · rw [← Option.some.inj hscalar]
          exact hc
        · cases hscalar
        · cases hscalar
        · cases hscalar
      · rw [List.filterMap_cons, List.filterMap_cons, hbindings]

end Projection

/-- Two queries with the same scalar fields match their documents alike, but for their filters. -/
theorem Projection.compile_congr {q q' : Spec} {p p' : Projection}
    (h : compile s model q = .ok p) (h' : compile s model q' = .ok p')
    (hsame : scalarFields q'.fields = scalarFields q.fields) :
    p'.required = p.required ∧ p'.optionals = p.optionals ∧ p'.bindings = p.bindings := by
  obtain ⟨ts, compiled, hts, hrequired, hoptionals, hcompiled, hbindings, -⟩ := compile_eq_ok h
  obtain ⟨ts', compiled', hts', hrequired', hoptionals', hcompiled', hbindings', -⟩ :=
    compile_eq_ok h'
  obtain ⟨plain, hplain, hb⟩ := bindings_of_sources hcompiled
  obtain ⟨plain', hplain', hb'⟩ := bindings_of_sources hcompiled'
  have htargets := targets_eq_ok hts
  have htargets' := targets_eq_ok hts'
  rw [hsame] at htargets'
  obtain rfl := Except.ok.inj (htargets.symm.trans htargets')
  rw [filterMap_sources] at hplain hplain'
  rw [hsame] at hplain'
  obtain rfl := Except.ok.inj (hplain.symm.trans hplain')
  exact ⟨Except.ok.inj (hrequired'.symm.trans hrequired),
    Except.ok.inj (hoptionals'.symm.trans hoptionals), by rw [hbindings, hbindings', hb, hb']⟩

/-- Two queries with the same scalar fields whose filters are compiled alike match the same
documents. -/
theorem Spec.documents_congr {q q' : Spec} {options : CompileOptions} {sel sel' : Selection}
    (h : q.compile s options model = .ok sel) (h' : q'.compile s options model = .ok sel')
    (hfields : q'.plainFields s model = q.plainFields s model)
    (hfilters : sel'.filters = sel.filters) :
    sel'.documents = sel.documents := by
  obtain ⟨n, classUri, p, filters, orderBy, -, hnormal, hclass, hp, -, rfl⟩ := compile_eq_ok h
  obtain ⟨n', classUri', p', filters', orderBy', -, hnormal', hclass', hp', -, rfl⟩ :=
    compile_eq_ok h'
  obtain rfl := Except.ok.inj (hclass.symm.trans hclass')
  rw [plainFields, plainFields, hnormal, hnormal'] at hfields
  obtain ⟨hrequired, hoptionals, hbindings⟩ :=
    Projection.compile_congr hp hp' (Except.ok.inj hfields)
  obtain rfl : filters' = filters := hfilters
  simp only [Selection.documents, Selection.elements, Selection.inGraph, hrequired, hoptionals,
    hbindings]

namespace Selection

/-- A grouped query with a plain column has one row for each key of its documents, in which
every column has the value that its own elements give for the documents of the key. This
value is the same in every other query with the same keys and the same members of its
groups; and queries with the same plain columns whose filters are compiled alike have the
same members. -/
theorem grouped_of_compile {d : SchemaDefinition} {q : Spec} {options : CompileOptions}
    {sel : Selection} (hd : d.build = .ok s) (hq : q.IsOrdered)
    (h : q.compile s options model = .ok sel) (hgrouped : sel.isGrouped = true)
    (hplain : ∃ v, .plain v ∈ sel.columns) (store : Store) (data : Dataset) :
    sel.AreGroups store data (sel.grouped.eval { store := store, data := data }) ∧
      ∀ (q' : Spec) (sel' : Selection), q'.IsOrdered →
        q'.compile s options model = .ok sel' → sel'.groupBy = sel.groupBy →
        (q'.plainFields s model = q.plainFields s model → sel'.filters = sel.filters →
          sel'.members store data = sel.members store data) ∧
        (sel'.members store data = sel.members store data →
          ∀ column ∈ sel.columns, column ∈ sel'.columns →
          ∀ row ∈ sel.grouped.eval { store := store, data := data },
          ∀ row' ∈ sel'.grouped.eval { store := store, data := data },
            row'.restrict sel.groupBy = row.restrict sel.groupBy →
              row' column.carrier = row column.carrier) := by
  have hs := SchemaDefinition.build_wellFormed hd
  have hkeys : sel.groupBy ≠ [] := by
    obtain ⟨v, hv⟩ := hplain
    rw [Spec.groupBy_of_compile h hgrouped]
    exact List.ne_nil_of_mem (List.mem_filterMap.mpr ⟨_, hv, rfl⟩)
  have hgraph {q' : Spec} {sel' : Selection} (h' : q'.compile s options model = .ok sel') :
      sel'.graph = options.graph := by
    obtain ⟨n, classUri, p, filters, orderBy, -, -, -, -, -, rfl⟩ := Spec.compile_eq_ok h'
    rfl
  have hrows := (Spec.isSeparated_of_compile hs hq h hkeys).areGroups store data
  refine ⟨hrows, fun q' sel' hq' h' hsame => ⟨fun hfields hfilters => ?_, ?_⟩⟩
  · rw [members, members, Spec.documents_congr h h' hfields hfilters, hsame]
  · intro hmembers column hcolumn hcolumn' row hrow row' hrow' hkey
    have hrows' := (Spec.isSeparated_of_compile hs hq' h' (hsame ▸ hkeys)).areGroups store data
    exact hrows.column_eq hrows' ((hgraph h').trans (hgraph h).symm) hmembers hcolumn hcolumn'
      hrow hrow' (hsame ▸ hkey)

/-! ## People of an age -/

/-- People by their type: how many there are whose age is 5, and what else is asked for. -/
def ofFive (others : Dict Aggregation) : Spec where
  fields := [("kind", .scalar (.ofText "_type"))]
  aggregates := ("n", ⟨.count, none, [], true⟩) :: others
  filter := some (FilterScope.ageOfFive .eq)

/-- The type of a person, which is the key of a group. -/
def kind : Variable :=
  ⟨"kind"⟩

/-- The predicate of the age of a person. -/
def agePredicate : Rdf.Iri :=
  ⟨"http://example.org/properties/Person/age"⟩

/-- A person. -/
def bob : Term :=
  .iri ⟨"http://example.org/instances/person/bob"⟩

/-- Two people whose age is 5, one of them as a double. -/
def fives : Graph :=
  {⟨alice, rdfType, .iri person.classUri⟩, ⟨alice, agePredicate, .literal (.ofInt 5)⟩,
    ⟨bob, rdfType, .iri person.classUri⟩,
    ⟨bob, agePredicate, .literal (.typed "5" (Rdf.xsd "double"))⟩}

/-- The solution for a person. -/
def ofPerson (r : Term) : Solution :=
  (Solution.ofDocument r).set kind (.iri person.classUri)

/-- The key of all people. -/
def peopleKey : Solution :=
  Solution.empty.set kind (.iri person.classUri)

theorem restrict_ofPerson (r : Term) : (ofPerson r).restrict [kind] = peopleKey := by
  funext v
  by_cases hv : v = kind
  · subst hv
    rw [Solution.restrict_of_mem (List.mem_singleton_self _)]
    rfl
  · rw [Solution.restrict_of_notMem (by simpa using hv), peopleKey, Solution.set_of_ne _ hv]
    rfl

theorem ofPerson_root (r : Term) : ofPerson r rootVariable = some r := by
  rw [ofPerson, Solution.set_of_ne _ (by decide), Solution.ofDocument, Solution.set_self]

/-- The age that is the number 5. -/
def ageStatement : Element :=
  .statement rootNode agePredicate (.term (.literal (.ofInt 5)))

/-- People whose age is the number 5. -/
def triplePattern : List Element :=
  [.statement rootNode rdfType (.term (.iri person.classUri)), ageStatement,
    .bind kind (.iri person.classUri)]

/-- Ages whose value is 5. -/
def comparedAge (v : Variable) : List Element :=
  [.statement rootNode agePredicate (.var v),
    .filter (.relation .equal (.var v) (.literal (.ofInt 5)))]

/-- People with an age whose value is 5. -/
def comparisonPattern (v : Variable) : List Element :=
  [.statement rootNode rdfType (.term (.iri person.classUri)),
    .filter (.hasMatch (groupPattern (comparedAge v))),
    .bind kind (.iri person.classUri)]

/-- The equality is a triple if the age is no column. -/
theorem compile_ofFive : ∃ sel, (ofFive []).compile peopleSchema {} "Person" = .ok sel ∧
    sel.isGrouped = true ∧ .plain kind ∈ sel.columns ∧ sel.groupBy = [kind] ∧
    sel.filters = [ageStatement] ∧ sel.graph = none ∧ sel.elements = triplePattern ∧
    .aggregate ⟨"n"⟩ (.reduce .count (.var rootVariable) true) none ∈ sel.columns :=
  ⟨_, rfl, rfl, List.mem_cons_self, rfl, rfl, rfl, rfl, List.mem_cons_of_mem _ List.mem_cons_self⟩

theorem compile_ofFive_names : ∃ sel,
    (ofFive [("names", ⟨.array, some (.ofText "name"), [], false⟩)]).compile peopleSchema {}
      "Person" = .ok sel ∧ sel.groupBy = [kind] ∧ sel.filters = [ageStatement] :=
  ⟨_, rfl, rfl, rfl⟩

/-- The equality is a comparison of values if the age is a column. -/
theorem compile_ofFive_oldest : ∃ sel v,
    (ofFive [("oldest", ⟨.max, some (.ofText "age"), [], false⟩)]).compile peopleSchema {}
      "Person" = .ok sel ∧ v ≠ rootVariable ∧ v ≠ kind ∧
    sel.groupBy = [kind] ∧ sel.graph = none ∧
    sel.elements = comparisonPattern v ∧
    .aggregate ⟨"n"⟩ (.reduce .count (.var rootVariable) true) none ∈ sel.columns :=
  ⟨_, _, rfl, by decide, by decide, rfl, rfl, rfl, List.mem_cons_of_mem _ List.mem_cons_self⟩

section Documents

variable {ctx : Context} {κ : Solution} {r : Term}

theorem mem_extendAll_person {es : List Element} (hctx : ctx.given = .empty) :
    κ ∈ extendAll ctx (.statement rootNode rdfType (.term (.iri person.classUri)) :: es) {.empty} ↔
      ∃ y, ⟨y, rdfType, .iri person.classUri⟩ ∈ ctx.statements ∧
        κ ∈ extendAll ctx es {.ofDocument y} := by
  have hfree : ctx.value? .empty rootVariable = none := by
    rw [Context.value?_eq hctx]
    rfl
  rw [← List.singleton_append, mem_extendAll_append]
  simp only [mem_extendAll_statement, rootNode]
  constructor
  · rintro ⟨ν, hν, hκ⟩
    obtain ⟨y, hy, rfl⟩ :=
      (Sparql.mem_extensions_subject (x := .iri person.classUri) rfl hfree).mp hν
    exact ⟨y, hy, hκ⟩
  · rintro ⟨y, hy, hκ⟩
    exact ⟨_, (Sparql.mem_extensions_subject (x := .iri person.classUri) rfl hfree).mpr
      ⟨y, hy, rfl⟩, hκ⟩

theorem mem_extendAll_kind {μ : Solution} :
    κ ∈ extendAll ctx [.bind kind (.iri person.classUri)] {μ} ↔
      κ = μ.set kind (.iri person.classUri) := by
  rw [mem_extendAll_cons, Element.extend, Multiset.map_singleton]
  simp only [mem_extendAll_nil, Multiset.mem_singleton, exists_eq_left]
  rfl

theorem extendAll_filter (e : Expr) (es : List Element) (ss : Solutions) :
    extendAll ctx (.filter e :: es) ss = extendAll ctx es ss := by
  rw [extendAll, Element.extend]

theorem value?_ofDocument (hctx : ctx.given = .empty) (y : Term) :
    rootNode.value? ctx (.ofDocument y) = some y :=
  (Context.value?_eq hctx _ _).trans (Solution.set_self _ _ _)

/-- The documents that a triple with the constant finds. -/
theorem mem_groupSolutions_triple (hctx : ctx.given = .empty) :
    κ ∈ groupSolutions ctx triplePattern ↔
    ∃ y, ⟨y, rdfType, .iri person.classUri⟩ ∈ ctx.statements ∧
      ⟨y, agePredicate, .literal (.ofInt 5)⟩ ∈ ctx.statements ∧ κ = ofPerson y := by
  have hfilters : filtersOf triplePattern = [] := rfl
  rw [mem_groupSolutions, hfilters, triplePattern, mem_extendAll_person hctx]
  simp only [List.not_mem_nil, false_implies, implies_true, and_true]
  have hfive (y : Term) : (Node.term (.literal (.ofInt 5))).value? ctx (.ofDocument y) =
      some (.literal (.ofInt 5)) := rfl
  refine exists_congr fun y => and_congr_right fun _ => ?_
  rw [← List.singleton_append, mem_extendAll_append, ageStatement]
  simp only [mem_extendAll_statement, mem_extendAll_kind,
    Sparql.mem_extensions_known (value?_ofDocument hctx y) (hfive y), and_assoc, exists_and_left,
    exists_eq_left]
  rfl

theorem holds_hasMatch_age {v : Variable} (hctx : ctx.given = .empty) (hroot : v ≠ rootVariable)
    (hkind : v ≠ kind) : (Expr.hasMatch (groupPattern (comparedAge v))).Holds ctx (ofPerson r) ↔
    ∃ t, ⟨r, agePredicate, t⟩ ∈ ctx.statements ∧
      ctx.store.related .equal t (.literal (.ofInt 5)) = some true := by
  have hperson : rootNode.value? (ctx.substituted (ofPerson r)) .empty = some r := by
    show (ctx.given.merge (ofPerson r) rootVariable).or none = some r
    rw [hctx, Option.or_none]
    exact ofPerson_root r
  have hfree : (ctx.substituted (ofPerson r)).value? .empty v = none := by
    show (ctx.given.merge (ofPerson r) v).or none = none
    rw [hctx, Option.or_none, Solution.merge, Solution.empty_apply, Option.none_or, ofPerson,
      Solution.set_of_ne _ hkind, Solution.ofDocument, Solution.set_of_ne _ hroot,
      Solution.empty_apply]
  have hfilters : filtersOf (comparedAge v) =
      [.relation .equal (.var v) (.literal (.ofInt 5))] := rfl
  have hsolution (κ : Solution) : κ ∈ extendAll (ctx.substituted (ofPerson r)) (comparedAge v)
      {.empty} ↔
      ∃ t, ⟨r, agePredicate, t⟩ ∈ ctx.statements ∧ κ = Solution.empty.set v t := by
    rw [comparedAge, ← List.singleton_append, mem_extendAll_append]
    simp only [extendAll_filter, mem_extendAll_nil, exists_eq_right', mem_extendAll_statement]
    exact Sparql.mem_extensions_object hperson hfree
  have hholds (t : Term) : (Expr.relation .equal (.var v) (.literal (.ofInt 5))).Holds
      (ctx.substituted (ofPerson r)) (Solution.empty.set v t) ↔
      ctx.store.related .equal t (.literal (.ofInt 5)) = some true := by
    refine Expr.holds_relation (c := ctx.substituted (ofPerson r)) ?_ rfl
    exact Context.value?_set_self hfree t
  rw [Expr.holds_hasMatch, eval_groupPattern, Ne, Multiset.eq_zero_iff_forall_notMem]
  simp only [mem_groupSolutions, hfilters, List.forall_mem_singleton, hsolution]
  push Not
  constructor
  · rintro ⟨_, ⟨t, ht, rfl⟩, h⟩
    exact ⟨t, ht, (hholds t).mp h⟩
  · rintro ⟨t, ht, h⟩
    exact ⟨_, ⟨t, ht, rfl⟩, (hholds t).mpr h⟩

/-- The documents that a comparison of values finds. -/
theorem mem_groupSolutions_comparison {v : Variable} (hctx : ctx.given = .empty)
    (hroot : v ≠ rootVariable) (hkind : v ≠ kind) :
    κ ∈ groupSolutions ctx (comparisonPattern v) ↔
    ∃ y, ⟨y, rdfType, .iri person.classUri⟩ ∈ ctx.statements ∧
      (∃ t, ⟨y, agePredicate, t⟩ ∈ ctx.statements ∧
        ctx.store.related .equal t (.literal (.ofInt 5)) = some true) ∧ κ = ofPerson y := by
  have hbind (y : Term) : κ ∈ extendAll ctx [.filter (.hasMatch (groupPattern (comparedAge v))),
      .bind kind (.iri person.classUri)] {.ofDocument y} ↔ κ = ofPerson y := by
    rw [extendAll_filter, mem_extendAll_kind]
    rfl
  rw [mem_groupSolutions, comparisonPattern, mem_extendAll_person hctx]
  simp only [hbind]
  constructor
  · rintro ⟨⟨y, hy, rfl⟩, hfilters⟩
    exact ⟨y, hy, (holds_hasMatch_age hctx hroot hkind).mp (hfilters _ List.mem_cons_self), rfl⟩
  · rintro ⟨y, hy, hage, rfl⟩
    refine ⟨⟨y, hy, rfl⟩, fun e he => ?_⟩
    rw [List.mem_singleton.mp he]
    exact (holds_hasMatch_age hctx hroot hkind).mpr hage

end Documents

/-- The documents of the only group are those that the document pattern finds. -/
theorem mem_documentsOf_people {sel : Selection} (meaning : Term → Prop) {r : Term}
    (hkeys : sel.groupBy = [kind]) (hgraph : sel.graph = none)
    (h : ∀ ctx : Context, ctx.given = .empty → ctx.store = .numeric → ctx.statements = fives →
      ∀ κ, κ ∈ groupSolutions ctx sel.elements ↔
        ∃ y, ⟨y, rdfType, .iri person.classUri⟩ ∈ fives ∧ meaning y ∧ κ = ofPerson y) :
    r ∈ sel.documentsOf .numeric (fives.dataset none) peopleKey ↔
      ⟨r, rdfType, .iri person.classUri⟩ ∈ fives ∧ meaning r := by
  rw [mem_documentsOf, mem_members, eval_documents, hgraph, hkeys]
  have hsolutions := h { store := .numeric, data := fives.dataset none } rfl rfl
    (fives.graph_dataset none)
  simp only [hsolutions]
  constructor
  · rintro ⟨_, ⟨y, hy, hmeaning, rfl⟩, -, hroot⟩
    rw [ofPerson_root] at hroot
    rw [← Option.some.inj hroot]
    exact ⟨hy, hmeaning⟩
  · rintro ⟨hr, hmeaning⟩
    exact ⟨_, ⟨r, hr, hmeaning, rfl⟩, restrict_ofPerson r, ofPerson_root r⟩

theorem mem_fives_type {r : Term} :
    ⟨r, rdfType, .iri person.classUri⟩ ∈ fives ↔ r = alice ∨ r = bob := by
  have hne : rdfType ≠ agePredicate := by decide
  simp [fives, hne]

/-- Both ages are 5 as values. -/
theorem exists_five {r : Term} (h : r = alice ∨ r = bob) :
    ∃ t, ⟨r, agePredicate, t⟩ ∈ fives ∧
      Store.numeric.related .equal t (.literal (.ofInt 5)) = some true := by
  rcases h with rfl | rfl
  · exact ⟨.literal (.ofInt 5), by decide, Store.numeric.compare_int .equal 5 5⟩
  · refine ⟨.literal (.typed "5" (Rdf.xsd "double")), by decide, ?_⟩
    rw [Store.related, Store.compare_numeric]
    decide +kernel

/-- The triple with the constant finds one of the people. -/
theorem documentsOf_triple {sel : Selection} (hkeys : sel.groupBy = [kind])
    (hgraph : sel.graph = none) (helements : sel.elements = triplePattern) :
    sel.documentsOf .numeric (fives.dataset none) peopleKey = {alice} := by
  ext r
  rw [mem_documentsOf_people (fun y => ⟨y, agePredicate, .literal (.ofInt 5)⟩ ∈ fives)
    hkeys hgraph fun ctx hctx _ hdata κ => by
      rw [helements, mem_groupSolutions_triple hctx, hdata], mem_fives_type, Finset.mem_singleton]
  constructor
  · rintro ⟨rfl | rfl, hage⟩
    · rfl
    · exact absurd hage (by decide)
  · rintro rfl
    exact ⟨.inl rfl, by decide⟩

/-- The comparison of values finds both people. -/
theorem documentsOf_comparison {sel : Selection} {v : Variable} (hroot : v ≠ rootVariable)
    (hkind : v ≠ kind) (hkeys : sel.groupBy = [kind]) (hgraph : sel.graph = none)
    (helements : sel.elements = comparisonPattern v) :
    sel.documentsOf .numeric (fives.dataset none) peopleKey = {alice, bob} := by
  ext r
  rw [mem_documentsOf_people (fun y => ∃ t, ⟨y, agePredicate, t⟩ ∈ fives ∧
      Store.numeric.related .equal t (.literal (.ofInt 5)) = some true)
    hkeys hgraph fun ctx hctx hstore hdata κ => by
      rw [helements, mem_groupSolutions_comparison hctx hroot hkind, hdata, hstore],
    mem_fives_type, Finset.mem_insert, Finset.mem_singleton]
  exact ⟨fun hr => hr.1, fun hr => ⟨hr, exists_five hr⟩⟩

/-- The row of the people has their number. -/
theorem AreGroups.exists_peopleRow {sel : Selection} {rows : Solutions} {documents : Finset Term}
    (h : sel.AreGroups .numeric (fives.dataset none) rows)
    (hcount : .aggregate ⟨"n"⟩ (.reduce .count (.var rootVariable) true) none ∈ sel.columns)
    (hdocuments : sel.documentsOf .numeric (fives.dataset none) peopleKey = documents)
    (halice : alice ∈ documents) :
    ∃ row ∈ rows, row.restrict sel.groupBy = peopleKey ∧
      row ⟨"n"⟩ = some (.literal (.ofInt documents.card)) := by
  obtain ⟨row, hrow, hkey⟩ :=
    h.exists_row (mem_keys_of_mem_members (mem_documentsOf.mp (hdocuments ▸ halice)))
  have hvalue := h.columns row hrow _ hcount
  rw [hkey, hdocuments] at hvalue
  exact ⟨row, hrow, hkey, hvalue⟩

theorem isOrdered_ofFive : (ofFive []).IsOrdered := by
  constructor <;> unfold Dict.IsSorted <;> decide

/-- There is one person whose age is the number 5, whether or not the names of such people
are asked for. -/
theorem grouped_ofFive :
    ∃ sel sel', people.build = .ok peopleSchema ∧ (ofFive []).IsOrdered ∧
      (ofFive []).compile peopleSchema {} "Person" = .ok sel ∧ sel.isGrouped = true ∧
      .plain kind ∈ sel.columns ∧
      sel.AreGroups .numeric (fives.dataset none)
        (sel.grouped.eval { store := .numeric, data := fives.dataset none }) ∧
      (∃ row ∈ sel.grouped.eval { store := .numeric, data := fives.dataset none },
        row ⟨"n"⟩ = some (.literal (.ofInt 1))) ∧
      (ofFive [("names", ⟨.array, some (.ofText "name"), [], false⟩)]).compile peopleSchema {}
        "Person" = .ok sel' ∧
      sel'.members .numeric (fives.dataset none) = sel.members .numeric (fives.dataset none) := by
  obtain ⟨sel, hsel, hgrouped, hplain, hkeys, hfilters, hgraph, helements, hcount⟩ := compile_ofFive
  obtain ⟨sel', hsel', hkeys', hfilters'⟩ := compile_ofFive_names
  have hordered' : (ofFive [("names", ⟨.array, some (.ofText "name"), [], false⟩)]).IsOrdered := by
    constructor <;> unfold Dict.IsSorted <;> decide
  obtain ⟨hrows, hothers⟩ := grouped_of_compile people_build isOrdered_ofFive hsel hgrouped
    ⟨kind, hplain⟩ .numeric (fives.dataset none)
  obtain ⟨row, hrow, -, hn⟩ := hrows.exists_peopleRow hcount
    (documentsOf_triple hkeys hgraph helements) (Finset.mem_singleton_self alice)
  exact ⟨sel, sel', people_build, isOrdered_ofFive, hsel, hgrouped, hplain, hrows, ⟨row, hrow, hn⟩,
    hsel', (hothers _ sel' hordered' hsel' (hkeys'.trans hkeys.symm)).1 rfl
      (hfilters'.trans hfilters.symm)⟩

/-- How many people there are whose age is 5 depends on whether the age is a column. -/
theorem count_of_other_columns :
    ¬∀ (d : SchemaDefinition) (s : Schema) (model : String) (options : CompileOptions) (q q' : Spec)
      (sel sel' : Selection) (store : Store) (data : Dataset), d.build = .ok s → q.IsOrdered →
      q'.IsOrdered → q.compile s options model = .ok sel → q'.compile s options model = .ok sel' →
      q'.fields = q.fields → q'.filter = q.filter →
      ∀ column ∈ sel.columns, column ∈ sel'.columns →
      ∀ row ∈ sel.grouped.eval { store := store, data := data },
      ∀ row' ∈ sel'.grouped.eval { store := store, data := data },
        row'.restrict sel.groupBy = row.restrict sel.groupBy →
          row' column.carrier = row column.carrier := by
  intro h
  obtain ⟨sel, hsel, -, -, hkeys, -, hgraph, helements, hcount⟩ := compile_ofFive
  obtain ⟨sel', v, hsel', hroot, hkind, hkeys', hgraph', helements', hcount'⟩ :=
    compile_ofFive_oldest
  have hs := SchemaDefinition.build_wellFormed people_build
  have hordered := isOrdered_ofFive
  have hordered' : (ofFive [("oldest", ⟨.max, some (.ofText "age"), [], false⟩)]).IsOrdered := by
    constructor <;> unfold Dict.IsSorted <;> decide
  have hrows := (Spec.isSeparated_of_compile hs hordered hsel
    (by rw [hkeys]; exact List.cons_ne_nil _ _)).areGroups .numeric (fives.dataset none)
  have hrows' := (Spec.isSeparated_of_compile hs hordered' hsel'
    (by rw [hkeys']; exact List.cons_ne_nil _ _)).areGroups .numeric (fives.dataset none)
  obtain ⟨row, hrow, hkey, hn⟩ := hrows.exists_peopleRow hcount
    (documentsOf_triple hkeys hgraph helements) (Finset.mem_singleton_self alice)
  obtain ⟨row', hrow', hkey', hn'⟩ := hrows'.exists_peopleRow hcount'
    (documentsOf_comparison hroot hkind hkeys' hgraph' helements') (Finset.mem_insert_self alice _)
  have hsame := h people peopleSchema "Person" {} _ _ sel sel' .numeric _ people_build hordered
    hordered' hsel hsel' rfl rfl _ hcount hcount' row hrow row' hrow'
    (by rw [← hkeys'.trans hkeys.symm, hkey', hkeys', ← hkeys, hkey])
  change row' ⟨"n"⟩ = row ⟨"n"⟩ at hsame
  have hne : alice ≠ bob := by decide
  rw [hn, hn', Finset.card_singleton, Finset.card_pair hne] at hsame
  exact absurd hsame (by decide)

end Selection

end DocGraph
