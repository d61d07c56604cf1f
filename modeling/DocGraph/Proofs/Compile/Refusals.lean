import DocGraph.Proofs.Codec.Refused
import DocGraph.Proofs.Compile.Checks

/-!
# Queries that are refused

Compiling a query checks its names, its model, its sort targets, the paths that it reads
and the comparisons of its filter (`Spec.checks_compile`). So it succeeds just for the
queries that pass all of these (`Spec.IsAccepted`), and its error tells which of them the
query does not pass (`Spec.RefusedWith`). `Spec.compile_isAccepted_or_refusedWith` says both of
every schema that is built.
-/

namespace DocGraph

open Json (Value)
open Outcome (Checks Succeeds check checks_bind_of_error checks_bind_of_succeeds checks_check
  succeeds_check succeeds_ok)

variable {s : Schema} {model : String} {q q' : Spec} {e : Error} {c : Comparison}

/-! ## Operands that are refused -/

/-- The values that an operand may stand for: itself, and the items of a list. -/
def Comparison.operands (c : Comparison) : List Value :=
  c.operand ::
    match c.operand with
    | .arr items => items
    | _ => []

namespace FilterScope

variable {f : FilterScope}

theorem error_of_constant {v : Value} (hv : v ∈ c.operands)
    (h : f.constant c.path v = .error e) :
    f.schema.resolve f.model c.path = .error e ∨
      ∃ v ∈ c.operands, f.schema.Refuses c.path v e :=
  (Schema.error_of_encode h).imp_right fun h => ⟨v, hv, h⟩

theorem error_of_constants (h : f.constants c.path c.operand = .error e) :
    f.schema.resolve f.model c.path = .error e ∨
      ∃ v ∈ c.operands, f.schema.Refuses c.path v e := by
  unfold constants at h
  split at h
  · next items hitems =>
    obtain ⟨v, hv, h⟩ := Outcome.exists_of_mapM_eq_error h
    refine error_of_constant (List.mem_cons_of_mem _ ?_) h
    rwa [hitems]
  · exact error_of_constant List.mem_cons_self (Outcome.bind_pure_eq_error.mp h)

/-- An operand is refused with the path of its comparison, or as a value at this path. -/
theorem error_of_operand (h : f.operand c = .error e) :
    f.schema.resolve f.model c.path = .error e ∨
      ∃ v ∈ c.operands, f.schema.Refuses c.path v e := by
  have hkind {fault : ValueFault} (h : .invalidValue c.path.text fault = e) :
      ∃ v ∈ c.operands, f.schema.Refuses c.path v e :=
    ⟨c.operand, List.mem_cons_self, h ▸ .kind fault⟩
  have htext {fault : ValueFault} (h : textOperand c fault = .error e) :
      ∃ v ∈ c.operands, f.schema.Refuses c.path v e := by
    unfold textOperand at h
    split at h
    · cases h
    · exact hkind (Except.error.inj h)
  unfold operand at h
  split at h
  · exact error_of_constants (Outcome.check_eq_error.mp h)
  · exact error_of_constants (Outcome.check_eq_error.mp h)
  · exact .inr (htext h)
  · exact .inr (htext h)
  · exact .inr (htext h)
  · split at h
    · split at h
      · cases h
      · exact .inr (hkind (Except.error.inj h))
    · exact .inr (hkind (Except.error.inj h))
  · cases h
  · exact error_of_constant List.mem_cons_self (Outcome.check_eq_error.mp h)

end FilterScope

/-! ## Fields that are made to fit -/

namespace Spec

/-- The query with the identifier as its field if it has no field and no aggregate. -/
def completed (q : Spec) : Spec :=
  if q.fields.isEmpty && q.aggregates.isEmpty then
    { q with fields := [(idKey, .scalar (.ofText idKey))] }
  else q

theorem normalized_eq :
    q.normalized s model = do
      return { q with fields := ← normalizedFields s model q.completed.fields } := by
  unfold normalized completed
  split <;> rfl

theorem aggregates_completed : q.completed.aggregates = q.aggregates := by
  unfold completed
  split <;> rfl

theorem sort_completed : q.completed.sort = q.sort := by
  unfold completed
  split <;> rfl

theorem names_completed : q.completed.names = q.columnNames := by
  unfold completed columnNames
  split
  · next hempty =>
    rw [Bool.and_eq_true, List.isEmpty_iff, List.isEmpty_iff] at hempty
    rw [names, hempty.2]
    rfl
  · rfl

/-- A selector that is made to fit its path reads the same. -/
theorem paths_normalizedSelector {selector selector' : Selector}
    (h : normalizedSelector s model selector = .ok selector') :
    selector'.paths = selector.paths := by
  cases selector with
  | scalar path =>
    obtain ⟨r, -, h⟩ := Outcome.bind_eq_ok.mp h
    obtain rfl := Except.ok.inj h
    split <;> rfl
  | array path => rw [← Except.ok.inj h]
  | objects property members => rw [← Except.ok.inj h]

theorem paths_normalized (h : q.normalized s model = .ok q') : q'.paths = q.completed.paths := by
  rw [normalized_eq] at h
  obtain ⟨fields, hfields, h⟩ := Outcome.bind_eq_ok.mp h
  have hpaths : fields.map (·.2.paths) = q.completed.fields.map (·.2.paths) := by
    refine Outcome.map_eq_of_mapM hfields fun entry entry' he => ?_
    obtain ⟨selector, hselector, he⟩ := Outcome.bind_eq_ok.mp he
    rw [← Except.ok.inj he, paths_normalizedSelector hselector]
  rw [← Except.ok.inj h, paths, paths, aggregates_completed, List.flatMap_def, hpaths,
    ← List.flatMap_def]

/-- A selector does not fit only if its path does not resolve. -/
theorem error_of_normalized (h : q.normalized s model = .error e) :
    .error e ∈ q.completed.paths.map (s.resolves model) := by
  rw [normalized_eq, Outcome.bind_pure_eq_error] at h
  obtain ⟨⟨name, selector⟩, hentry, h⟩ := Outcome.exists_of_mapM_eq_error h
  rw [Outcome.bind_pure_eq_error] at h
  cases selector with
  | scalar path =>
    have hpath : path.path ∈ q.completed.paths :=
      List.mem_append_left _ (List.mem_flatMap_of_mem hentry List.mem_cons_self)
    exact List.mem_map.mpr
      ⟨_, hpath, Outcome.check_eq_error.mpr (Outcome.bind_pure_eq_error.mp h)⟩
  | array path => cases h
  | objects property members => cases h

/-! ## Names and sort targets -/

theorem checkSort_congr (hsort : q'.sort = q.sort) (hnames : q'.names = q.names) :
    q'.checkSort = q.checkSort := by
  have hhas : q'.hasName = q.hasName := by
    funext name
    rw [Bool.eq_iff_iff, hasName_iff, hasName_iff, hnames]
  rw [checkSort, checkSort, hsort, hhas]

/-! ## The checks of a query -/

/-- The checks that compiling a query makes. -/
def checks (q : Spec) (s : Schema) (model : String) : List (Outcome Unit) :=
  q.validateNames :: check (s.model model) :: q.completed.checkSort ::
    (q.completed.paths.map (s.resolves model) ++
      q.comparisons.flatMap (FilterScope.ofModel s model).comparisonChecks)

/-- The variables of sort targets are those of columns. -/
theorem succeeds_sortKeys (hvalid : q.validateNames = .ok ()) (hsort : q'.checkSort = .ok ())
    (hnames : q'.names = q.columnNames) : Succeeds (q'.sort.mapM sortKey) := by
  rw [Outcome.succeeds_mapM]
  intro d hd
  refine Outcome.succeeds_bind_pure.mpr (Projection.succeeds_fieldVariable ?_ .output)
  refine isFieldName_of_mem_columnNames hvalid _ (hnames ▸ ?_)
  exact succeeds_checkSort.mp ⟨(), hsort⟩ d hd

/-- Compiling a query makes its checks, and no step beside them is refused. -/
theorem checks_compile (hs : s.WellFormed) (options : CompileOptions) :
    (q.compile s options model).Checks (q.checks s model) := by
  refine (Outcome.checks_self _).bind fun _ hvalid => ?_
  refine checks_bind_of_error (fun e he => ?_) fun q' hnormal => ?_
  · exact List.mem_cons_of_mem _ (List.mem_cons_of_mem _
      (List.mem_append_left _ (error_of_normalized he)))
  have hsources := isFieldName_of_mem_sources hvalid hnormal
  have hpaths := paths_normalized hnormal
  obtain ⟨fields, rfl, hnames⟩ := normalized_eq_ok hnormal
  have hclass : (s.classUri model).Checks [check (s.model model)] :=
    (checks_check _).bind_of_succeeds fun _ _ => succeeds_ok _
  have hsort : checkSort { q with fields := fields } = q.completed.checkSort :=
    checkSort_congr (sort_completed (q := q)).symm (hnames.trans names_completed.symm)
  have hprojection : (Projection.compile s model { q with fields := fields }).Checks
      (q.completed.paths.map (s.resolves model)) :=
    hpaths ▸ Projection.checks_compile hs hsources
  rw [hsort]
  refine hclass.bind fun classUri hclassUri => (Outcome.checks_self _).bind fun _ hsorted =>
    hprojection.bind fun p _ => ?_
  have hanchor : (⟨s, model, p.projected, options.fullText⟩ : FilterScope).anchor =
      .ok (.statement rootNode Rdf.rdfType (.term (.iri classUri))) := by
    rw [FilterScope.anchor, hclassUri]
    rfl
  refine (checks_filterElements hs hanchor).bind_of_succeeds fun filters _ => ?_
  exact Outcome.succeeds_bind_pure.mpr (succeeds_sortKeys hvalid (hsort.trans hsorted) hnames)

/-! ## Why a query is refused -/

/-- Whether a query passes all checks. -/
structure IsAccepted (q : Spec) (s : Schema) (model : String) : Prop where
  registered : ∃ m, s.model? model = some m
  names : ∀ name ∈ q.names, isFieldName name = true
  disjoint : ∀ name ∈ Dict.keys q.fields, name ∉ Dict.keys q.aggregates
  sort : ∀ d ∈ q.sort, d.target ∈ q.columnNames
  /-- The paths of fields and aggregates resolve, and so do those of their members. -/
  reads : ∀ path ∈ q.completed.paths, Succeeds (s.resolve model path)
  /-- The paths of all comparisons of the filter resolve. -/
  compares : ∀ c ∈ q.comparisons, Succeeds (s.resolve model c.path)
  operands : ∀ c ∈ q.comparisons, (FilterScope.ofModel s model).Admits c

/-- Which check a query does not pass, by the error that it is refused with. -/
inductive RefusedWith (q : Spec) (s : Schema) (model : String) : Error → Prop
  | name {name : String} : name ∈ q.names → isFieldName name = false →
      RefusedWith q s model (.invalidQuery (.invalidName name))
  | twice {name : String} : name ∈ Dict.keys q.fields → name ∈ Dict.keys q.aggregates →
      RefusedWith q s model (.invalidQuery (.fieldAndAggregate name))
  | model : s.model? model = none → RefusedWith q s model (.unknownModel model)
  | sort {d : SortDirective} : d ∈ q.sort → d.target ∉ q.columnNames →
      RefusedWith q s model (.unknownSortTarget d.target)
  | path {path : Path} : path ∈ q.completed.paths ∨ path ∈ q.comparisons.map (·.path) →
      ¬Succeeds (s.resolve model path) →
      RefusedWith q s model (.unknownProperty model path.text)
  | operand {c : Comparison} {v : Value} {e : Error} : c ∈ q.comparisons → v ∈ c.operands →
      s.Refuses c.path v e → (FilterScope.ofModel s model).operand c = .error e →
      RefusedWith q s model e

/-- A query that is refused does not pass the check that its error tells. -/
theorem RefusedWith.not_isAccepted (h : q.RefusedWith s model e) : ¬q.IsAccepted s model := by
  intro ha
  cases h with
  | name hmem hname => rw [ha.names _ hmem] at hname; cases hname
  | twice hfield haggregate => exact ha.disjoint _ hfield haggregate
  | model hm =>
    obtain ⟨m, hm'⟩ := ha.registered
    rw [hm] at hm'
    cases hm'
  | sort hd htarget => exact htarget (ha.sort _ hd)
  | path hpath hno =>
    rcases hpath with hpath | hpath
    · exact hno (ha.reads _ hpath)
    · obtain ⟨c, hc, rfl⟩ := List.mem_map.mp hpath
      exact hno (ha.compares c hc)
  | operand hc _ _ hrefused =>
    have hsucceeds := FilterScope.succeeds_operand.mpr (ha.operands _ hc)
    rw [hrefused] at hsucceeds
    exact Outcome.not_succeeds_error _ hsucceeds

theorem RefusedWith.ne_malformedVariable (h : q.RefusedWith s model e) :
    e ≠ .malformedVariable := by
  rintro rfl
  cases h with
  | operand _ _ hrefuses _ => cases hrefuses

theorem RefusedWith.ne_noValueTest (h : q.RefusedWith s model e) (operator : String) :
    e ≠ .invalidQuery (.noValueTest operator) := by
  rintro rfl
  cases h with
  | operand _ _ hrefuses _ => cases hrefuses

theorem isAccepted_of_checks (h : ∀ y ∈ q.checks s model, Succeeds y) : q.IsAccepted s model := by
  rw [checks, List.forall_mem_cons, List.forall_mem_cons, List.forall_mem_cons,
    List.forall_mem_append, List.forall_mem_map, List.forall_mem_flatMap] at h
  obtain ⟨⟨_, hvalid⟩, hmodel, hsort, hpaths, hfilter⟩ := h
  have hcomparison {c : Comparison} (hc : c ∈ q.comparisons) :=
    List.forall_mem_cons.mp (hfilter c hc)
  obtain ⟨m, hm⟩ := succeeds_check.mp hmodel
  exact {
    registered := ⟨m, Schema.model_eq_ok.mp hm⟩
    names := isFieldName_of_validateNames hvalid
    disjoint := fun name => notMem_aggregates_of_validateNames hvalid
    sort := by
      rw [succeeds_checkSort, sort_completed, names_completed] at hsort
      exact hsort
    reads := fun path hpath => succeeds_check.mp (hpaths path hpath)
    compares := fun c hc => succeeds_check.mp (hcomparison hc).1
    operands := fun c hc => FilterScope.succeeds_operand.mp
      (List.forall_mem_singleton.mp (hcomparison hc).2) }

theorem refusedWith_of_validateNames (h : q.validateNames = .error e) :
    q.RefusedWith s model e := by
  unfold validateNames at h
  split at h
  · next name hname =>
    obtain rfl := Except.error.inj h
    exact .name (List.mem_of_find?_eq_some hname) (by simpa using List.find?_some hname)
  · split at h
    · next name hname =>
      obtain rfl := Except.error.inj h
      have hcontains := List.find?_some hname
      exact .twice (List.mem_of_find?_eq_some hname) (Dict.contains_iff.mp hcontains)
    · cases h

theorem refusedWith_of_checkSort (h : q.completed.checkSort = .error e) :
    q.RefusedWith s model e := by
  unfold checkSort at h
  rw [sort_completed] at h
  split at h
  · next d hd =>
    obtain rfl := Except.error.inj h
    refine .sort (List.mem_of_find?_eq_some hd) fun hmem => ?_
    have hno := List.find?_some hd
    rw [hasName_iff.mpr (names_completed ▸ hmem)] at hno
    cases hno
  · cases h

theorem refusedWith_of_resolve (hs : s.WellFormed) {path : Path}
    (hpath : path ∈ q.completed.paths ∨ path ∈ q.comparisons.map (·.path))
    (h : s.resolve model path = .error e) : q.RefusedWith s model e := by
  have hno : ¬Succeeds (s.resolve model path) := by
    rw [h]
    exact Outcome.not_succeeds_error e
  rcases Schema.error_of_resolve hs h with ⟨hm, rfl⟩ | ⟨-, rfl⟩
  · exact .model hm
  · exact .path hpath hno

/-- Every check that fails is the reason for its error. -/
theorem refusedWith_of_checks (hs : s.WellFormed) (h : .error e ∈ q.checks s model) :
    q.RefusedWith s model e := by
  simp only [checks, List.mem_cons, List.mem_append, List.mem_map, List.mem_flatMap] at h
  rcases h with h | h | h | ⟨path, hpath, h⟩ | ⟨c, hc, h⟩
  · exact refusedWith_of_validateNames h.symm
  · obtain ⟨hm, rfl⟩ := Schema.model_eq_error.mp (Outcome.check_eq_error.mp h.symm)
    exact .model hm
  · exact refusedWith_of_checkSort h.symm
  · exact refusedWith_of_resolve hs (.inl hpath) (Outcome.check_eq_error.mp h)
  · have hpath := Or.inr (a := c.path ∈ q.completed.paths) (List.mem_map_of_mem (f := (·.path)) hc)
    rcases List.mem_cons.mp h with h | h
    · exact refusedWith_of_resolve hs hpath (Outcome.check_eq_error.mp h.symm)
    · have hoperand := (List.mem_singleton.mp h).symm
      rcases FilterScope.error_of_operand hoperand with h | ⟨v, hv, h⟩
      · exact refusedWith_of_resolve hs hpath h
      · exact .operand hc hv h hoperand

/-- A query is compiled if it passes all checks. Otherwise the error tells one that it does
not pass; it is never about a variable, or about an operator without a test. -/
theorem compile_isAccepted_or_refusedWith {d : SchemaDefinition} (h : d.build = .ok s) (q : Spec)
    (options : CompileOptions) (model : String) :
    (Succeeds (q.compile s options model) ↔ q.IsAccepted s model) ∧
      ∀ e, q.compile s options model = .error e →
        q.RefusedWith s model e ∧ e ≠ .malformedVariable ∧
          ∀ operator, e ≠ .invalidQuery (.noValueTest operator) := by
  have hs := SchemaDefinition.build_wellFormed h
  have hchecks : (q.compile s options model).Checks (q.checks s model) := checks_compile hs options
  have hrefused {e : Error} (he : q.compile s options model = .error e) : q.RefusedWith s model e :=
    refusedWith_of_checks hs (hchecks.error he)
  refine ⟨⟨fun hok => isAccepted_of_checks (hchecks.succeeds hok), fun haccepted => ?_⟩,
    fun e he => ⟨hrefused he, (hrefused he).ne_malformedVariable, (hrefused he).ne_noValueTest⟩⟩
  cases hcompile : q.compile s options model with
  | ok sel => exact succeeds_ok sel
  | error e => exact absurd haccepted (hrefused hcompile).not_isAccepted

/-- The names of people who were born at a date. -/
def bornOn (date : String) : Spec where
  fields := [("name", .scalar (.ofText "name"))]
  filter := some (.compare ⟨.ofText "born", .eq, .str date⟩)
  sort := [⟨"name", .ascending⟩]

/-- A date that is in the year 10000 in UTC. -/
def afterCalendar : String :=
  "9999-12-31T23:59:59-01:00"

theorem compile_isAccepted_or_refusedWith_people :
    people.build = .ok peopleSchema ∧
      (bornOn "2000-01-01").IsAccepted peopleSchema "Person" ∧
      (bornOn afterCalendar).RefusedWith peopleSchema "Person" .timestampRange :=
  ⟨people_build, (compile_isAccepted_or_refusedWith people_build _ {} _).1.mp ⟨_, rfl⟩,
    ((compile_isAccepted_or_refusedWith people_build _ {} _).2 _ rfl).1⟩

/-- A date beyond the calendar is refused with no error of a model, a path, a sort target, a
name, a value or an IRI. -/
theorem not_reported_of_compile_afterCalendar :
    people.build = .ok peopleSchema ∧
      ¬∀ e, (bornOn afterCalendar).compile peopleSchema {} "Person" = .error e →
        (∃ name, e = .unknownModel name) ∨ (∃ model path, e = .unknownProperty model path) ∨
          (∃ name, e = .unknownSortTarget name) ∨ (∃ fault, e = .invalidQuery fault) ∨
          (∃ path fault, e = .invalidValue path fault) ∨ e = .malformedIri := by
  refine ⟨people_build, fun h => ?_⟩
  rcases h .timestampRange rfl with ⟨_, h⟩ | ⟨_, _, h⟩ | ⟨_, h⟩ | ⟨_, h⟩ | ⟨_, _, h⟩ | h <;> cases h

end Spec

end DocGraph
