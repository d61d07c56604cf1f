import DocGraph.Proofs.Compile.Accepted
import DocGraph.Proofs.Compile.Documents

/-!
# What compiling a query checks

The checks that steps make are steps of their own: those succeed only if all of these do,
and fail with the error of one of them (`Outcome.Checks`). The columns of a query check that
their paths resolve (`Projection.checks_compile`), and its filter that the paths of its
comparisons do and that their operands are ones that their operators take
(`Spec.checks_filterElements`). No hop, node or variable of a path that resolves is refused.
-/

namespace DocGraph

/-! ## Checks -/

namespace Outcome

variable {α β : Type} {x : Outcome α} {f : α → Outcome β} {ys zs : List (Outcome Unit)}

/-- Whether steps succeed, as a step of its own. -/
def check (x : Outcome α) : Outcome Unit :=
  x.map fun _ => ()

theorem succeeds_check : x.check.Succeeds ↔ x.Succeeds := by
  cases x with
  | ok a => exact iff_of_true (succeeds_ok _) (succeeds_ok _)
  | error e => exact iff_of_false (not_succeeds_error _) (not_succeeds_error _)

theorem check_eq_error {e : Error} : x.check = .error e ↔ x = .error e := by
  cases x <;> simp [check, Except.map]

/-- Whether the checks that steps make are those of a list: the steps succeed only if all of
these do, and fail with the error of one of them. -/
structure Checks (x : Outcome α) (ys : List (Outcome Unit)) : Prop where
  succeeds : x.Succeeds → ∀ y ∈ ys, y.Succeeds
  error : ∀ {e}, x = .error e → .error e ∈ ys

theorem checks_of_succeeds (h : x.Succeeds) : x.Checks [] := by
  obtain ⟨a, rfl⟩ := h
  exact ⟨fun _ => nofun, nofun⟩

theorem checks_check (x : Outcome α) : x.Checks [x.check] where
  succeeds h := List.forall_mem_singleton.mpr (succeeds_check.mpr h)
  error h := List.mem_singleton.mpr (check_eq_error.mpr h).symm

theorem Checks.of_check_eq {y : Outcome Unit} (h : x.check = y) : x.Checks [y] :=
  h ▸ checks_check x

/-- A step that is a check. -/
theorem checks_self (y : Outcome Unit) : y.Checks [y] :=
  Checks.of_check_eq (by cases y <;> rfl)

theorem Checks.congr (h : x.Checks ys) (hys : ∀ y, y ∈ ys ↔ y ∈ zs) : x.Checks zs where
  succeeds hx y hy := h.succeeds hx y ((hys y).mpr hy)
  error hx := (hys _).mp (h.error hx)

theorem Checks.succeeds_iff (h : x.Checks ys) : x.Succeeds ↔ ∀ y ∈ ys, y.Succeeds := by
  refine ⟨h.succeeds, fun hys => ?_⟩
  cases hx : x with
  | ok a => exact succeeds_ok a
  | error e => exact absurd (hys _ (h.error hx)) (not_succeeds_error e)

/-- A first step whose error is one of the checks of what comes after it adds none. -/
theorem checks_bind_of_error (hx : ∀ e, x = .error e → .error e ∈ ys)
    (hf : ∀ a, x = .ok a → (f a).Checks ys) : (x >>= f).Checks ys := by
  cases hxa : x with
  | error e =>
    refine ⟨fun h => absurd h (not_succeeds_error e), fun {e'} h => ?_⟩
    obtain rfl : e = e' := Except.error.inj h
    exact hx e hxa
  | ok a => exact hf a hxa

/-- A first step that cannot fail adds no checks. -/
theorem checks_bind_of_succeeds (hx : x.Succeeds) (hf : ∀ a, x = .ok a → (f a).Checks ys) :
    (x >>= f).Checks ys := by
  obtain ⟨a, ha⟩ := hx
  exact checks_bind_of_error (fun e he => by rw [ha] at he; cases he) hf

theorem Checks.bind (hx : x.Checks ys) (hf : ∀ a, x = .ok a → (f a).Checks zs) :
    (x >>= f).Checks (ys ++ zs) := by
  cases hxa : x with
  | error e =>
    refine ⟨fun h => absurd h (not_succeeds_error e), fun {e'} h => ?_⟩
    obtain rfl : e = e' := Except.error.inj h
    exact List.mem_append_left _ (hx.error hxa)
  | ok a =>
    refine ⟨fun h => List.forall_mem_append.mpr ⟨?_, (hf a hxa).succeeds h⟩,
      fun h => List.mem_append_right _ ((hf a hxa).error h)⟩
    exact hx.succeeds ⟨a, hxa⟩

/-- A last step that cannot fail adds no checks. -/
theorem Checks.bind_of_succeeds (hx : x.Checks ys) (hf : ∀ a, x = .ok a → (f a).Succeeds) :
    (x >>= f).Checks ys := by
  have h := hx.bind fun a ha => checks_of_succeeds (hf a ha)
  rwa [List.append_nil] at h

theorem checks_mapM {g : α → List (Outcome Unit)} {as : List α}
    (h : ∀ a ∈ as, (f a).Checks (g a)) : (as.mapM f).Checks (as.flatMap g) := by
  induction as with
  | nil => exact checks_of_succeeds (succeeds_ok _)
  | cons a as ih =>
    rw [List.forall_mem_cons] at h
    rw [List.mapM_cons, List.flatMap_cons]
    exact h.1.bind fun b _ => (ih h.2).bind_of_succeeds fun bs _ => succeeds_ok _

end Outcome

open Outcome (Checks Succeeds check checks_bind_of_error checks_bind_of_succeeds checks_check
  checks_mapM checks_of_succeeds succeeds_ok)
open Rdf (Term Variable)
open Sparql (Expr)

variable {s : Schema} {model name : String} {path : Path} {r : ResolvedPath}

/-- The check that a path resolves. -/
def Schema.resolves (s : Schema) (model : String) (path : Path) : Outcome Unit :=
  check (s.resolve model path)

/-! ## Columns -/

theorem succeeds_nodeAt (hs : s.WellFormed) (hr : s.resolve model path = .ok r) (n : Nat) :
    Succeeds (PathPrefix.nodeAt path r n) := by
  induction n with
  | zero => exact succeeds_ok _
  | succ n ih =>
    have hvariable : Succeeds (variableAt .node (path.segments.take (n + 1))) :=
      ⟨_, variableAt_of_names (.ofFields (fun segment hsegment =>
        Schema.isFieldSegment_of_resolve hs hr segment (List.mem_of_mem_take hsegment)) nofun)⟩
    unfold PathPrefix.nodeAt
    split
    · exact succeeds_ok _
    · split
      · exact ih
      split
      · exact succeeds_ok _
      · obtain ⟨v, hv⟩ := hvariable
        rw [hv]
        exact succeeds_ok _

/-- The hops of prefixes of paths that resolve are not refused. -/
theorem succeeds_hops (hs : s.WellFormed) (model : String) {ps : List PathPrefix}
    (hps : ∀ p ∈ ps, s.resolve model p.path = .ok p.resolved) :
    Succeeds (PathPrefix.hops s ps) := by
  rw [PathPrefix.hops, Outcome.succeeds_bind_pure, Outcome.succeeds_mapM]
  intro p hp
  have hr := hps p hp
  unfold PathPrefix.hop
  split
  · exact succeeds_ok _
  split
  · exact succeeds_ok _
  split
  · exact succeeds_ok _
  · next n _ _ step hstep =>
    obtain ⟨subject, hsubject⟩ := succeeds_nodeAt hs hr n
    obtain ⟨object, hobject⟩ := succeeds_nodeAt hs hr (n + 1)
    rw [hsubject, Outcome.ok_bind, hobject, Outcome.ok_bind]
    exact succeeds_hop hs hr step (List.mem_of_getElem? hstep) subject object

namespace Projection

theorem checks_hopsAfter (hs : s.WellFormed) (path : Path) (start : Nat) :
    (hopsAfter s model path start).Checks [s.resolves model path] := by
  refine (checks_check _).bind_of_succeeds fun r hr =>
    succeeds_hops hs model fun p hp => ?_
  obtain ⟨n, -, -, rfl⟩ := PathPrefix.mem_ofPath.mp hp
  exact hr

theorem checks_valueAt (hs : s.WellFormed) (path : Path) :
    (valueAt s model path).Checks [s.resolves model path] :=
  (checks_check _).bind_of_succeeds fun _ hr =>
    Outcome.succeeds_bind_pure.mpr (succeeds_nodeAt hs hr _)

theorem succeeds_fieldVariable (hname : isFieldName name = true) (role : Role) :
    Succeeds (fieldVariable role name) :=
  ⟨_, variableAt_of_names (.ofFieldName hname)⟩

theorem checks_valuesColumn (hs : s.WellFormed) (hname : isFieldName name = true)
    (output : Variable) (path : Path) :
    (valuesColumn s model name output path).Checks [s.resolves model path] := by
  refine checks_bind_of_succeeds (succeeds_fieldVariable hname _) fun v _ => ?_
  refine Checks.congr ((checks_hopsAfter hs path 0).bind fun hops _ =>
    (checks_valueAt hs path).bind_of_succeeds fun value _ => ?_) ?_
  · exact Outcome.succeeds_bind_pure.mpr (succeeds_fieldVariable hname _)
  · simp

theorem checks_memberParts (hs : s.WellFormed) (property : Path) (members : Dict Path)
    (index : Nat) : (memberParts s model property index members).Checks
      ((members.map (property ++ ·.2)).map (s.resolves model)) := by
  induction members generalizing index with
  | nil => exact checks_of_succeeds (succeeds_ok _)
  | cons m rest ih =>
    refine Checks.congr ((checks_hopsAfter hs _ _).bind fun hops _ =>
      (checks_valueAt hs _).bind fun value _ =>
        (ih (index + 1)).bind_of_succeeds fun parts _ => succeeds_ok _) ?_
    simp

theorem checks_objectsColumn (hs : s.WellFormed) (hname : isFieldName name = true)
    (output : Variable) (property : Path) (members : Dict Path) :
    (objectsColumn s model name output property members).Checks
      ((property :: members.map (property ++ ·.2)).map (s.resolves model)) := by
  refine (checks_hopsAfter hs property 0).bind fun hops _ =>
    (checks_memberParts hs property members 0).bind_of_succeeds fun parts _ => ?_
  obtain ⟨v, hv⟩ := succeeds_fieldVariable hname .encoded
  dsimp only
  rw [hv, Outcome.ok_bind]
  exact Outcome.succeeds_bind_pure.mpr (succeeds_fieldVariable hname _)

theorem checks_scalarColumn (hs : s.WellFormed) (output : Variable) (field : FieldPath) :
    (scalarColumn s model output field).Checks [s.resolves model field.path] :=
  (checks_valueAt hs field.path).bind_of_succeeds fun _ _ => succeeds_ok _

theorem checks_reducedColumn (hs : s.WellFormed) (output : Variable) (path : Path)
    (r : Sparql.Reduction) (distinct : Bool) :
    (reducedColumn s model output path r distinct).Checks [s.resolves model path] := by
  refine Checks.congr ((checks_valueAt hs path).bind fun value _ =>
    (checks_hopsAfter hs path 0).bind_of_succeeds fun hops _ => succeeds_ok _) ?_
  simp

end Projection

/-- The paths that a field reads: that of its value, or those of objects and their
members. -/
def Selector.paths : Selector → List Path
  | .scalar field => [field.path]
  | .array field => [field.path]
  | .objects property members => property.path :: members.map (property.path ++ ·.2)

/-- The paths that an aggregate reads: that of its values, and those of the members of
the objects that it packs. -/
def Aggregation.paths (a : Aggregation) : List Path :=
  match a.property with
  | none => []
  | some path => path :: if a.aggregator.isPacked then a.members.map (path ++ ·.2) else []

/-- The paths that the source of a column reads. -/
def ColumnSource.paths : ColumnSource → List Path
  | .field selector => selector.paths
  | .aggregate a => a.paths

/-- A column checks that its paths resolve. -/
theorem ColumnSource.checks_compile (hs : s.WellFormed) (hname : isFieldName name = true)
    (source : ColumnSource) :
    (source.compile s model name).Checks (source.paths.map (s.resolves model)) := by
  have houtput : Succeeds (outputVariable name) := Projection.succeeds_fieldVariable hname .output
  cases source with
  | field selector =>
    refine checks_bind_of_succeeds houtput fun output _ => ?_
    cases selector with
    | scalar field => exact Projection.checks_scalarColumn hs output field
    | array field => exact Projection.checks_valuesColumn hs hname output field.path
    | objects property members =>
      exact Projection.checks_objectsColumn hs hname output property.path members
  | aggregate a =>
    refine checks_bind_of_succeeds houtput fun output _ => ?_
    obtain ⟨aggregator, property, members, distinct⟩ := a
    cases property with
    | none => exact checks_of_succeeds (succeeds_ok _)
    | some path =>
      cases aggregator with
      | count | sum | avg | min | max => exact Projection.checks_reducedColumn hs output path _ _
      | array =>
        dsimp only
        split
        · next hempty =>
          rw [List.isEmpty_iff] at hempty
          subst hempty
          exact Projection.checks_valuesColumn hs hname output path
        · exact Projection.checks_objectsColumn hs hname output path members
      | object => exact Projection.checks_objectsColumn hs hname output path members

/-- The paths that the columns of a query read. -/
def Spec.paths (q : Spec) : List Path :=
  q.fields.flatMap (·.2.paths) ++ q.aggregates.flatMap (·.2.paths)

namespace Projection

/-- The paths of the scalar fields are resolved first. -/
theorem error_of_targets {fields : Dict Selector} {e : Error}
    (h : targets s model fields = .error e) :
    .error e ∈ (fields.flatMap (·.2.paths)).map (s.resolves model) := by
  induction fields with
  | nil => cases h
  | cons entry rest ih =>
    obtain ⟨name, selector⟩ := entry
    rw [List.flatMap_cons, List.map_append]
    cases selector with
    | scalar field =>
      rcases Outcome.bind_eq_error.mp h with h | ⟨r, -, h⟩
      · exact List.mem_append_left _
          (List.mem_singleton.mpr (Outcome.check_eq_error.mpr h).symm)
      · exact List.mem_append_right _ (ih (Outcome.bind_pure_eq_error.mp h))
    | array field => exact List.mem_append_right _ (ih h)
    | objects property members => exact List.mem_append_right _ (ih h)

/-- The columns of a query check that all their paths resolve. -/
theorem checks_compile (hs : s.WellFormed) {q : Spec}
    (hnames : ∀ e ∈ q.sources, isFieldName e.1 = true) :
    (compile s model q).Checks (q.paths.map (s.resolves model)) := by
  rw [Spec.paths, List.map_append, List.map_flatMap, List.map_flatMap]
  rw [Spec.sources, List.forall_mem_append, List.forall_mem_map, List.forall_mem_map] at hnames
  refine checks_bind_of_error (fun e he => ?_) fun ts hts => ?_
  · rw [← List.map_flatMap]
    exact List.mem_append_left _ (error_of_targets he)
  have hresolved := resolve_of_mem_targets hts
  refine checks_bind_of_succeeds (succeeds_hops hs model (resolve_of_mem_requiredHops hresolved))
    fun required _ => ?_
  refine checks_bind_of_succeeds ?_ fun optionals _ => ?_
  · rw [optionalElements, Outcome.succeeds_bind_pure, Outcome.succeeds_mapM]
    exact fun group _ => succeeds_hops hs model (resolve_of_mem_optionalHops hresolved)
  refine (checks_mapM fun e he => ?_).bind fun fields _ =>
    (checks_mapM fun e he => ?_).bind_of_succeeds fun aggregates _ => succeeds_ok _
  · exact ColumnSource.checks_compile hs (hnames.1 e he) (.field e.2)
  · exact ColumnSource.checks_compile hs (hnames.2 e he) (.aggregate e.2)

end Projection

/-! ## Filters -/

/-- The comparisons that the filter of a query is read by. -/
def Spec.comparisons (q : Spec) : List Comparison :=
  q.filter.elim [] (·.comparisons false)

namespace FilterScope

variable {f : FilterScope} {c : Comparison} {anchor : Element}

/-- The filters of the queries of a model. A filter is checked alike for all of them. -/
def ofModel (s : Schema) (model : String) : FilterScope :=
  ⟨s, model, [], .standard⟩

/-- The check that an operand is a text. -/
def textOperand (c : Comparison) (fault : ValueFault) : Outcome Unit :=
  match c.operand with
  | .str _ => .ok ()
  | _ => .error (.invalidValue c.path.text fault)

/-- The check that the operand of a comparison is one that its operator takes. -/
def operand (f : FilterScope) (c : Comparison) : Outcome Unit :=
  match c.operator.positive with
  | .oneOf | .all => check (f.constants c.path c.operand)
  | .regex | .iregex => textOperand c .expressionNotText
  | .search => textOperand c .searchNotText
  | .strlen =>
    match c.operand with
    | .num n =>
      if n.signed?.isSome then .ok () else .error (.invalidValue c.path.text .lengthNotInteger)
    | _ => .error (.invalidValue c.path.text .lengthNotInteger)
  | .present => .ok ()
  | _ => check (f.constant c.path c.operand)

/-- Whether the operand of a comparison is one that its operator takes at its path. -/
def Admits (f : FilterScope) (c : Comparison) : Prop :=
  match c.operator.positive with
  | .oneOf | .all => Succeeds (f.constants c.path c.operand)
  | .regex | .iregex | .search => ∃ text, c.operand = .str text
  | .strlen => ∃ n length, c.operand = .num n ∧ n.signed? = some length
  | .present => True
  | _ => Succeeds (f.constant c.path c.operand)

theorem succeeds_textOperand {fault : ValueFault} :
    (textOperand c fault).Succeeds ↔ ∃ text, c.operand = .str text := by
  unfold textOperand
  split
  · next text h => exact iff_of_true (succeeds_ok _) ⟨text, h⟩
  · next h => exact iff_of_false (Outcome.not_succeeds_error _) fun ⟨text, he⟩ => h text he

/-- The check succeeds just for the operands that the operator admits. -/
theorem succeeds_operand : (f.operand c).Succeeds ↔ f.Admits c := by
  unfold operand Admits
  cases c.operator.positive with
  | oneOf | all => exact Outcome.succeeds_check
  | regex | iregex | search => exact succeeds_textOperand
  | strlen =>
    cases c.operand with
    | num n => cases hn : n.signed? <;> simp [hn]
    | _ => simp
  | present => exact iff_of_true (succeeds_ok _) trivial
  | _ => exact Outcome.succeeds_check

/-- A test of values checks the operand. -/
theorem checks_test (hall : c.operator.positive ≠ .all) (hpresent : c.operator.positive ≠ .present)
    (hsearch : c.operator.positive ≠ .search) (value : Expr) :
    (f.test c c.operator.positive value).Checks [f.operand c] := by
  have hpolarity := c.operator.polarity_positive
  unfold operand
  cases hop : c.operator.positive with
  | eq | gt | gte | lt | lte | oneOf =>
    exact (checks_check _).bind_of_succeeds fun _ _ => succeeds_ok _
  | regex | iregex =>
    refine Checks.of_check_eq ?_
    unfold test textOperand
    cases c.operand <;> rfl
  | strlen =>
    refine Checks.of_check_eq ?_
    unfold test
    cases c.operand with
    | num n => cases hn : n.signed? <;> simp only [hn] <;> rfl
    | _ => rfl
  | present => exact absurd hop hpresent
  | all => exact absurd hop hall
  | search => exact absurd hop hsearch
  | _ =>
    rw [hop] at hpolarity
    cases hpolarity

/-- The checks of a comparison: that its path resolves, and that its operand is one that its
operator takes. -/
def comparisonChecks (f : FilterScope) (c : Comparison) : List (Outcome Unit) :=
  [f.schema.resolves f.model c.path, f.operand c]

theorem checks_comparison (hs : f.schema.WellFormed) (n : Nat) (c : Comparison) :
    (f.comparison n c).Checks (f.comparisonChecks c) := by
  refine (checks_check _).bind fun r hr => ?_
  have hpath := succeeds_path hs hr n
  dsimp only
  split
  · next hinline =>
    rw [operand, hinline.1]
    exact (checks_check _).bind_of_succeeds fun t _ =>
      Outcome.succeeds_bind_pure.mpr (hpath (some t))
  split
  · next hall =>
    rw [operand, hall]
    exact (checks_check _).bind_of_succeeds fun values _ =>
      Outcome.succeeds_bind_pure.mpr (succeeds_allOf hs hr n values)
  next hall =>
  obtain ⟨ch, hch⟩ := hpath none
  split
  · next hpresent =>
    rw [operand, hpresent, hch, Outcome.ok_bind]
    refine Checks.of_check_eq ?_
    split <;> rfl
  split
  · next hsearch =>
    rw [operand, hsearch, hch]
    refine Checks.of_check_eq ?_
    show _ = textOperand c .searchNotText
    unfold textOperand
    cases c.operand <;> rfl
  next hpresent hsearch =>
  rw [hch, Outcome.ok_bind]
  exact (checks_test hall hpresent hsearch _).bind_of_succeeds fun _ _ => succeeds_ok _

/-- A comparison is compiled exactly if its path resolves and its operator takes its operand. -/
theorem succeeds_comparison_iff (hs : f.schema.WellFormed) {n : Nat} :
    (f.comparison n c).Succeeds ↔ (f.schema.resolve f.model c.path).Succeeds ∧ f.Admits c := by
  rw [(checks_comparison hs n c).succeeds_iff, comparisonChecks, List.forall_mem_cons,
    List.forall_mem_singleton, succeeds_operand]
  exact and_congr_left' Outcome.succeeds_check

mutual

/-- A condition checks the comparisons that it, or its negation, is read by. -/
theorem checks_condition (hs : f.schema.WellFormed) (hanchor : f.anchor = .ok anchor) :
    ∀ (cond : Condition) (negated : Bool) (n : Nat),
      (f.compile negated n cond).Checks ((cond.comparisons negated).flatMap f.comparisonChecks)
  | .compare c, negated, n => by
    rw [Condition.comparisons, Condition.fold, List.flatMap_singleton]
    exact (checks_comparison hs n _).bind_of_succeeds fun _ _ => succeeds_ok _
  | .and children, negated, n => by
    cases negated
    · exact checks_all hs hanchor children false true n
    · rw [compile, if_pos rfl, hanchor, Outcome.ok_bind]
      exact (checks_branches hs hanchor children true false n).bind_of_succeeds
        fun _ _ => succeeds_ok _
  | .or children, negated, n => by
    cases negated
    · rw [compile, if_neg Bool.false_ne_true, hanchor, Outcome.ok_bind]
      exact (checks_branches hs hanchor children false false n).bind_of_succeeds
        fun _ _ => succeeds_ok _
    · exact checks_all hs hanchor children true true n
  | .not child, negated, n => checks_condition hs hanchor child (!negated) n

theorem checks_all (hs : f.schema.WellFormed) (hanchor : f.anchor = .ok anchor) :
    ∀ (conds : List Condition) (negated conjunctive : Bool) (n : Nat),
      (f.compileAll negated n conds).Checks ((Condition.foldList (.listing Comparison) ([·]) negated
        conjunctive conds).flatMap f.comparisonChecks)
  | [], _, _, _ => checks_of_succeeds (succeeds_ok _)
  | cond :: rest, negated, conjunctive, n => by
    rw [Condition.foldList, Connectives.listing, List.flatMap_append]
    exact (checks_condition hs hanchor cond negated n).bind fun here _ =>
      (checks_all hs hanchor rest negated conjunctive here.2).bind_of_succeeds
        fun _ _ => succeeds_ok _

theorem checks_branches (hs : f.schema.WellFormed) (hanchor : f.anchor = .ok anchor) :
    ∀ (conds : List Condition) (negated conjunctive : Bool) (n : Nat),
      (f.compileBranches negated anchor n conds).Checks ((Condition.foldList (.listing Comparison)
        ([·]) negated conjunctive conds).flatMap f.comparisonChecks)
  | [], _, _, _ => checks_of_succeeds (succeeds_ok _)
  | cond :: rest, negated, conjunctive, n => by
    rw [Condition.foldList, Connectives.listing, List.flatMap_append]
    exact (checks_condition hs hanchor cond negated n).bind fun here _ =>
      (checks_branches hs hanchor rest negated conjunctive here.2).bind_of_succeeds
        fun _ _ => succeeds_ok _

end

end FilterScope

/-- The filter of a query checks the comparisons that it is read by. -/
theorem Spec.checks_filterElements {q : Spec} {f : FilterScope} {anchor : Element}
    (hs : f.schema.WellFormed) (hanchor : f.anchor = .ok anchor) :
    (q.filterElements f).Checks (q.comparisons.flatMap f.comparisonChecks) := by
  unfold filterElements comparisons
  cases q.filter with
  | none => exact checks_of_succeeds (succeeds_ok _)
  | some cond =>
    dsimp only
    rw [FilterScope.compile_eliminateNot]
    exact (FilterScope.checks_condition hs hanchor cond false 0).bind_of_succeeds
      fun _ _ => succeeds_ok _

end DocGraph
