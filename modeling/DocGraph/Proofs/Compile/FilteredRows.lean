import DocGraph.Proofs.Compile.Documents
import DocGraph.Proofs.Compile.Grouped
import DocGraph.Proofs.Compile.Ways

/-!
# Rows of filtered queries

A filter takes no row of an ungrouped query apart and adds none, but it can repeat rows:
each occurs as many times as often as the filter holds in ways for its document
(`Selection.count_rows_of_filter`). A filter whose disjunctions have one branch, and whose
chains have one hop, only removes rows.
-/

namespace DocGraph

open Rdf (Dataset Iri Term Variable rdfType)
open FilterScope (alice)
open Sparql (Context Solution Solutions Store)

variable {s : Schema} {model : String} {q : Spec} {options : CompileOptions} {sel : Selection}
  {f : FilterScope} {cond : Condition} {store : Store} {data : Dataset}

/-- A selection without its filter. -/
def Selection.unfiltered (sel : Selection) : Selection :=
  { sel with filters := [] }

namespace Spec

/-- What the filter of a query is compiled for. -/
def filterScope (q : Spec) (s : Schema) (options : CompileOptions) (model : String) :
    Outcome FilterScope := do
  let p ← Projection.compile s model (← q.normalized s model)
  return ⟨s, model, p.projected, options.fullText⟩

/-- A query is compiled without its filter like with it. -/
theorem compile_unfiltered (h : q.compile s options model = .ok sel) :
    { q with filter := none }.compile s options model = .ok sel.unfiltered := by
  obtain ⟨⟨⟩, hvalid, h⟩ := Outcome.bind_eq_ok.mp h
  obtain ⟨q', hnormal, h⟩ := Outcome.bind_eq_ok.mp h
  obtain ⟨fields, hfields, hnormal⟩ := Outcome.bind_eq_ok.mp hnormal
  obtain rfl := Except.ok.inj hnormal
  obtain ⟨classUri, hclass, h⟩ := Outcome.bind_eq_ok.mp h
  obtain ⟨⟨⟩, hsort, h⟩ := Outcome.bind_eq_ok.mp h
  obtain ⟨p, hp, h⟩ := Outcome.bind_eq_ok.mp h
  obtain ⟨filters, -, h⟩ := Outcome.bind_eq_ok.mp h
  obtain ⟨orderBy, horder, h⟩ := Outcome.bind_eq_ok.mp h
  obtain rfl := Except.ok.inj h
  have hnormal' : { q with filter := none }.normalized s model =
      .ok { q with filter := none, fields := fields } :=
    Outcome.bind_eq_ok.mpr ⟨fields, hfields, rfl⟩
  refine Outcome.bind_eq_ok.mpr ⟨(), hvalid, Outcome.bind_eq_ok.mpr ⟨_, hnormal', ?_⟩⟩
  refine Outcome.bind_eq_ok.mpr ⟨classUri, hclass, Outcome.bind_eq_ok.mpr ⟨(), hsort, ?_⟩⟩
  refine Outcome.bind_eq_ok.mpr ⟨p, hp, Outcome.bind_eq_ok.mpr ⟨[], rfl, ?_⟩⟩
  exact Outcome.bind_eq_ok.mpr ⟨orderBy, horder, rfl⟩

theorem exists_filterScope (h : q.compile s options model = .ok sel) :
    ∃ f, q.filterScope s options model = .ok f := by
  obtain ⟨q', classUri, p, filters, orderBy, -, hnormal, -, hp, -, -⟩ := compile_eq_ok h
  exact ⟨_, Outcome.bind_eq_ok.mpr ⟨q', hnormal, Outcome.bind_eq_ok.mpr ⟨p, hp, rfl⟩⟩⟩

/-- The rest of a document pattern is optional elements and bindings, and any filter can
stand before it. -/
theorem exists_filterable (hs : s.WellFormed) (h : q.compile s options model = .ok sel) :
    ∃ classUri, s.classUri model = .ok classUri ∧
      (∀ (c : Context) (m n : Nat), c.given = .empty → Filterable c (IsInstanceOf c classUri)
        (FilterScope.OwnsBetween m n) sel.required (sel.optionals ++ sel.bindings)) ∧
      ∀ e ∈ sel.optionals ++ sel.bindings,
        (∃ block, e = .optional block) ∨ ∃ v value, e = .bind v value := by
  obtain ⟨q', classUri, p, filters, orderBy, hvalid, hnormal, hclass, hp, -, rfl⟩ := compile_eq_ok h
  have hnames := isFieldName_of_mem_sources hvalid hnormal
  refine ⟨classUri, hclass, fun c m n hc => Projection.filterable hs hp hnames hc m n,
    fun e he => ?_⟩
  rcases List.mem_append.mp he with he | he
  · obtain ⟨block, rfl, -⟩ := Projection.isTriple_optionals hp e he
    exact .inl ⟨block, rfl⟩
  · obtain ⟨name, field, output, r, node, -, -, -, -, rfl⟩ := Projection.binding_cases hp he
    exact .inr ⟨output, _, rfl⟩

/-- The filter of a query is that of its condition for its scope. -/
theorem exists_compile_filter (h : q.compile s options model = .ok sel)
    (hfilter : q.filter = some cond) (hf : q.filterScope s options model = .ok f) :
    f.schema = s ∧ f.model = model ∧
      ∃ n, f.compile false 0 cond.eliminateNot = .ok (sel.filters, n) := by
  obtain ⟨q', classUri, p, filters, orderBy, -, hnormal, -, hp, hfilters, rfl⟩ := compile_eq_ok h
  simp only [filterScope, hnormal, hp, Outcome.ok_bind, Outcome.pure_eq, Except.ok.injEq] at hf
  subst hf
  obtain ⟨fields, rfl, -⟩ := normalized_eq_ok hnormal
  simp only [filterElements, hfilter] at hfilters
  obtain ⟨⟨es, n⟩, hes, hfilters⟩ := Outcome.bind_eq_ok.mp hfilters
  obtain rfl := Except.ok.inj hfilters
  exact ⟨rfl, rfl, n, hes⟩

open scoped Classical in
/-- A filter repeats every row of the document pattern as often as it has ways for its
document. -/
theorem count_documents (hs : s.WellFormed) (h : q.compile s options model = .ok sel)
    (hfilter : q.filter = some cond) (hf : q.filterScope s options model = .ok f)
    {vs : List Variable} (hroot : rootVariable ∈ vs)
    (hvs : ∀ v ∈ vs, v = rootVariable ∨ ¬IsInternal v) (store : Store) (data : Dataset)
    (row : Solution) :
    ((sel.documents.eval { store := store, data := data }).map (·.restrict vs)).count row =
      (row rootVariable).elim 0
          (fun x => cond.ways (f.weight store (data.graph options.graph) x) false) *
        ((sel.unfiltered.documents.eval { store := store, data := data }).map
          (·.restrict vs)).count row := by
  obtain ⟨classUri, hclass, hfilterable, -⟩ := exists_filterable hs h
  obtain ⟨rfl, rfl, n, hes⟩ := exists_compile_filter h hfilter hf
  set c : Context := { store := store, data := data, graph := options.graph }
  have hset : FilterScope.Setting f c classUri := ⟨hs, hclass, rfl⟩
  have hcounted := (FilterScope.counted_compile hset _ false 0 n sel.filters hes).counted
  have hfree : ∀ v ∈ vs, ¬FilterScope.OwnsBetween 0 n v := by
    intro v hv howned
    rcases hvs v hv with rfl | hinternal
    · exact FilterScope.not_ownsBetween_root 0 n howned
    · exact hinternal howned.isInternal
  have hcount := count_filtered (hfilterable c 0 n rfl) hcounted hfree hroot row
  simp only [Selection.eval_documents, Selection.elements, Selection.unfiltered, List.append_nil,
    graph_of_compile h]
  simp only [Condition.ways, Condition.fold_eliminateNot] at hcount
  simp only [List.append_assoc] at hcount ⊢
  exact hcount

end Spec

namespace Selection

/-- The rows of an ungrouped query, with their documents. -/
noncomputable def rows (sel : Selection) (store : Store) (data : Dataset) : Solutions :=
  (sel.ordered.eval { store := store, data := data }).map
    (·.restrict (rootVariable :: sel.columns.map Column.carrier))

theorem eval_ordered (h : sel.isGrouped = false) (c : Context) :
    sel.ordered.eval c = sel.documents.eval c := by
  rw [ordered, h]
  simp only [Bool.false_eq_true, if_false]
  split
  · rfl
  · rfl

/-- An ungrouped query gives its rows, if these are neither deduplicated nor sliced. -/
theorem eval_pattern (hdistinct : sel.distinct = false) (hoffset : sel.offset = 0)
    (hlimit : sel.limit = none) :
    sel.pattern.eval { store := store, data := data } =
      (sel.rows store data).map (·.restrict (sel.columns.map Column.carrier)) := by
  have hpattern : sel.pattern = .project sel.ordered (sel.columns.map Column.carrier) := by
    simp [pattern, hdistinct, hoffset, hlimit]
  rw [hpattern, rows, Multiset.map_map]
  refine Multiset.map_congr rfl fun μ _ => funext fun v => ?_
  by_cases hv : v ∈ sel.columns.map Column.carrier
  · rw [Function.comp_apply, Solution.restrict_of_mem hv, Solution.restrict_of_mem hv,
      Solution.restrict_of_mem (List.mem_cons_of_mem _ hv)]
  · rw [Function.comp_apply, Solution.restrict_of_notMem hv, Solution.restrict_of_notMem hv]

/-- The columns of an ungrouped query are no internal variables. -/
theorem not_isInternal_carrier (hs : s.WellFormed) (h : q.compile s options model = .ok sel)
    (hplain : sel.isGrouped = false) :
    ∀ v ∈ sel.columns.map Column.carrier, ¬IsInternal v := by
  obtain ⟨q', classUri, p, filters, orderBy, hvalid, hnormal, -, hp, -, rfl⟩ := Spec.compile_eq_ok h
  have hnames := Spec.isFieldName_of_mem_sources hvalid hnormal
  intro v hv
  obtain ⟨column, hcolumn, rfl⟩ := List.mem_map.mp hv
  refine Projection.not_isInternal_key hs hnames hp _ (List.mem_filterMap.mpr ⟨column, hcolumn, ?_⟩)
  have hnot := List.any_eq_false.mp hplain column hcolumn
  cases column with
  | plain v => rfl
  | aggregate | packed => exact absurd rfl hnot

open scoped Classical in
/-- A filter repeats every row of an ungrouped query as often as it has ways for its
document. -/
theorem count_rows (hs : s.WellFormed) (h : q.compile s options model = .ok sel)
    (hplain : sel.isGrouped = false) (hfilter : q.filter = some cond)
    (hf : q.filterScope s options model = .ok f) (store : Store) (data : Dataset) (row : Solution) :
    (sel.rows store data).count row =
      (row rootVariable).elim 0
          (fun x => cond.ways (f.weight store (data.graph options.graph) x) false) *
        (sel.unfiltered.rows store data).count row := by
  have hall : sel.unfiltered.isGrouped = false := hplain
  rw [rows, rows, eval_ordered hplain, eval_ordered hall]
  refine Spec.count_documents hs h hfilter hf List.mem_cons_self (fun v hv => ?_) store data row
  rcases List.mem_cons.mp hv with rfl | hv
  · exact .inl rfl
  · exact .inr (not_isInternal_carrier hs h hplain v hv)

open scoped Classical in
/-- The rows of an ungrouped query are those that it has without its filter, each repeated
as often as the filter has ways for its document. It has a way for just the documents that
the filter asks for. If its disjunctions have one branch and its comparisons are direct, no
row is repeated. -/
theorem count_rows_of_filter {d : SchemaDefinition} (hd : d.build = .ok s)
    (h : q.compile s options model = .ok sel) (hplain : sel.isGrouped = false)
    (hfilter : q.filter = some cond) (store : Store) (data : Dataset) :
    ∃ f all, q.filterScope s options model = .ok f ∧
      { q with filter := none }.compile s options model = .ok all ∧
      (∀ row, (sel.rows store data).count row =
        (row rootVariable).elim 0
            (fun x => cond.ways (f.weight store (data.graph options.graph) x) false) *
          (all.rows store data).count row) ∧
      (∀ x, cond.ways (f.weight store (data.graph options.graph) x) false ≠ 0 ↔
        cond.Holds (f.Answers store (data.graph options.graph) f.isInlined · x) false) ∧
      ((∀ cmp ∈ cond.comparisons false, f.IsDirect cmp) → cond.ways (fun _ => 1) false ≤ 1 →
        ∀ row ∈ sel.rows store data,
          (sel.rows store data).count row = (all.rows store data).count row) ∧
      (sel.distinct = false → sel.offset = 0 → sel.limit = none →
        sel.pattern.eval { store := store, data := data } =
          (sel.rows store data).map (·.restrict (sel.columns.map Column.carrier))) := by
  have hs := SchemaDefinition.build_wellFormed hd
  obtain ⟨f, hf⟩ := Spec.exists_filterScope h
  have hcount := count_rows hs h hplain hfilter hf store data
  refine ⟨f, sel.unfiltered, hf, Spec.compile_unfiltered h, hcount,
    fun _ => FilterScope.ways_weight_ne_zero_iff, fun hdirect hone row hrow => ?_, eval_pattern⟩
  have hpositive := Multiset.count_ne_zero.mpr hrow
  rw [hcount] at hpositive ⊢
  obtain ⟨hways, -⟩ := Nat.mul_ne_zero_iff.mp hpositive
  cases hroot : row rootVariable with
  | none => exact absurd (by rw [hroot]; rfl) hways
  | some x =>
    rw [hroot, Option.elim_some] at hways
    have hle : cond.ways (f.weight store (data.graph options.graph) x) false ≤
        cond.ways (fun _ => 1) false :=
      Condition.ways_le fun cmp hcmp => FilterScope.weight_le_one (hdirect cmp hcmp)
    rw [Option.elim_some, show cond.ways (f.weight store (data.graph options.graph) x) false = 1
      by omega, Nat.one_mul]

/-! ## People of any age -/

/-- The types of the people that meet a condition. -/
def kindsOf (cond : Condition) : Spec where
  fields := [("kind", .scalar (.ofText "_type"))]
  filter := some cond

/-- An age of 5, or any age. -/
def anyAge : Condition :=
  .or [FilterScope.ageOfFive .eq, .comparison (.ofText "age") .present (.bool true)]

theorem compile_kindsOf_anyAge : ∃ sel f,
    (kindsOf anyAge).compile peopleSchema {} "Person" = .ok sel ∧
    (kindsOf anyAge).filterScope peopleSchema {} "Person" = .ok f ∧ sel.isGrouped = false ∧
    sel.distinct = false ∧ sel.offset = 0 ∧ sel.limit = none ∧ sel.graph = none ∧
    sel.columns = [.plain kind] ∧ f = ⟨peopleSchema, "Person", [.ofText "_type"], .standard⟩ ∧
    sel.unfiltered.elements = [.statement rootNode rdfType (.term (.iri person.classUri)),
      .bind kind (.iri person.classUri)] :=
  ⟨_, _, rfl, rfl, rfl, rfl, rfl, rfl, rfl, rfl, rfl, rfl⟩

/-- Alice, whose age is the number 5, is found by either branch. -/
theorem two_le_ways_anyAge :
    2 ≤ anyAge.ways (FilterScope.weight ⟨peopleSchema, "Person", [.ofText "_type"], .standard⟩
      .numeric fives alice) false := by
  obtain ⟨r, hr, hreaches⟩ := FilterScope.exists_resolve_age
  set f : FilterScope := ⟨peopleSchema, "Person", [.ofText "_type"], .standard⟩ with hf
  have hfive : (⟨alice, agePredicate, .literal (.ofInt 5)⟩ : Rdf.Statement) ∈ fives := by decide
  have heq : f.weight .numeric fives alice
      ⟨.ofText "age", .eq, .num (.integer ⟨5, by decide, by decide⟩)⟩ ≠ 0 := by
    rw [FilterScope.weight_ne_zero_iff, FilterScope.answers_of_isInlined (by decide)]
    exact ⟨r, .literal (.ofInt 5), hr, rfl, hreaches.mpr hfive⟩
  have hpresent : f.weight .numeric fives alice ⟨.ofText "age", .present, .bool true⟩ ≠ 0 := by
    rw [FilterScope.weight_ne_zero_iff]
    exact ⟨r, hr, _, hreaches.mpr hfive, trivial⟩
  exact Nat.add_le_add (Nat.one_le_iff_ne_zero.mpr heq) (Nat.one_le_iff_ne_zero.mpr hpresent)

/-- The row of Alice. -/
noncomputable def aliceRow : Solution :=
  (ofPerson alice).restrict [rootVariable, kind]

theorem aliceRow_root : aliceRow rootVariable = some alice := by
  rw [aliceRow, Solution.restrict_of_mem List.mem_cons_self, ofPerson_root]

/-- Without a condition there is a row for Alice. -/
theorem aliceRow_mem_rows {sel : Selection} (hplain : sel.isGrouped = false)
    (hgraph : sel.graph = none) (hcolumns : sel.columns = [.plain kind])
    (helements : sel.elements = [.statement rootNode rdfType (.term (.iri person.classUri)),
      .bind kind (.iri person.classUri)]) :
    aliceRow ∈ sel.rows .numeric (fives.dataset none) := by
  rw [rows, eval_ordered hplain, eval_documents, hgraph, helements, hcolumns]
  refine Multiset.mem_map.mpr ⟨ofPerson alice, mem_groupSolutions.mpr ⟨?_, nofun⟩, rfl⟩
  refine (mem_extendAll_person rfl).mpr ⟨alice, ?_, mem_extendAll_kind.mpr rfl⟩
  show _ ∈ (fives.dataset none).graph none
  rw [Rdf.Graph.graph_dataset]
  decide

open scoped Classical in
/-- The rows of Alice: as often as without the condition, times the ways in which she meets
it. -/
theorem count_rows_anyAge :
    ∃ sel all, people.build = .ok peopleSchema ∧
      (kindsOf anyAge).compile peopleSchema {} "Person" = .ok sel ∧ sel.isGrouped = false ∧
      (kindsOf anyAge).filter = some anyAge ∧
      { kindsOf anyAge with filter := none }.compile peopleSchema {} "Person" = .ok all ∧
      (sel.rows .numeric (fives.dataset none)).count aliceRow =
        anyAge.ways (FilterScope.weight ⟨peopleSchema, "Person", [.ofText "_type"], .standard⟩
          .numeric fives alice) false *
            (all.rows .numeric (fives.dataset none)).count aliceRow := by
  obtain ⟨sel, f, hsel, hf, hplain, -, -, -, -, -, rfl, -⟩ := compile_kindsOf_anyAge
  obtain ⟨f, all, hf', hall, hcount, -⟩ := count_rows_of_filter people_build hsel hplain rfl
    .numeric (fives.dataset none)
  obtain rfl := Except.ok.inj (hf'.symm.trans hf)
  refine ⟨sel, all, people_build, hsel, hplain, rfl, hall, ?_⟩
  rw [hcount, aliceRow_root, Option.elim_some,
    show (fives.dataset none).graph _ = fives from fives.graph_dataset none]

open scoped Classical in
/-- With the condition there are more rows for Alice than without. -/
theorem not_count_rows_eq :
    ¬∀ (d : SchemaDefinition) (s : Schema) (model : String) (options : CompileOptions) (q : Spec)
      (sel all : Selection) (store : Store) (data : Dataset), d.build = .ok s → q.IsOrdered →
      q.compile s options model = .ok sel →
      { q with filter := none }.compile s options model = .ok all →
      sel.isGrouped = false → sel.distinct = false → sel.offset = 0 → sel.limit = none →
      ∀ row ∈ sel.rows store data,
        (sel.rows store data).count row = (all.rows store data).count row := by
  intro h
  obtain ⟨sel, f, hsel, hf, hplain, hdistinct, hoffset, hlimit, hgraph, hcolumns, rfl, helements⟩ :=
    compile_kindsOf_anyAge
  have hs := SchemaDefinition.build_wellFormed people_build
  have hall : sel.unfiltered.isGrouped = false := hplain
  have hrow := Multiset.count_pos.mpr (aliceRow_mem_rows hall hgraph hcolumns helements)
  have hcount := count_rows hs hsel hplain rfl hf .numeric (fives.dataset none) aliceRow
  have hways := two_le_ways_anyAge
  rw [aliceRow_root, Option.elim_some,
    show (fives.dataset none).graph _ = fives from fives.graph_dataset none] at hcount
  have hlt : (sel.unfiltered.rows .numeric (fives.dataset none)).count aliceRow <
      (sel.rows .numeric (fives.dataset none)).count aliceRow := by
    rw [hcount]
    exact (Nat.lt_mul_iff_one_lt_left hrow).mpr hways
  have hmem := Multiset.count_pos.mp (hrow.trans hlt)
  have hordered : (kindsOf anyAge).IsOrdered := by
    constructor <;> unfold Dict.IsSorted <;> decide
  have hsame := h people peopleSchema "Person" {} _ sel _ .numeric (fives.dataset none) people_build
    hordered hsel (Spec.compile_unfiltered hsel) hplain hdistinct hoffset hlimit aliceRow hmem
  exact absurd hsame hlt.ne'

end Selection

end DocGraph
