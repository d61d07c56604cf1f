import DocGraph.Proofs.Schema.Identities
import Mathlib.Data.List.Duplicate

/-!
# The passes that build a schema

A schema is built in three passes. The first one checks the names of the models, the second one
checks the properties and collects the predicates that are stored (`stored_eq_ok`), and the
third one makes the properties from these. What the first two check is `Checked`. It leaves
nothing for the third one to miss: a property has the predicate of what stores it, which is the
property itself or the relation that it inverts (`StoredBy`), and this predicate is in the table
(`propertyOf_of_kindOf`). So definitions are refused if something is wrong with one of them
(`Refuses`), with an error that says what this is, and for nothing else (`refuses_of_build`,
`succeeds_build_iff`).
-/

namespace DocGraph

open Rdf (Iri)

theorem SchemaFault.unless_eq_error {fault : SchemaFault} {condition : Bool} {e : Error} :
    fault.unless condition = .error e ↔ condition = false ∧ .invalidSchema fault = e := by
  cases condition <;> simp [SchemaFault.unless]

namespace SchemaDefinition

/-- Why the definitions of a schema are refused. -/
inductive Refuses (d : SchemaDefinition) : Error → Prop
  | modelName {md} : md ∈ d.models → isIdentifier md.name = false →
    d.Refuses (.invalidSchema (.invalidName md.name))
  | modelTwice {name} : List.Duplicate name (d.models.map (·.name)) →
    d.Refuses (.invalidSchema (.modelTwice name))
  | propertyName {md p} : md ∈ d.models → p ∈ md.properties → isIdentifier p.name = false →
    d.Refuses (.invalidSchema (.invalidName p.name))
  | propertyTwice {md name} : md ∈ d.models →
    List.Duplicate name (md.properties.map (·.name)) →
    d.Refuses (.invalidSchema (.propertyTwice md.name name))
  | unknownTarget {md p target} : md ∈ d.models → p ∈ md.properties → p.target = .model target →
    target ∉ d.models.map (·.name) →
    d.Refuses (.invalidSchema (.unknownTarget md.name p.name target))
  | predicate {md p} : md ∈ d.models → p ∈ md.properties → p.inverseOf = none →
    d.predicateOf md.name p = .error .malformedIri → d.Refuses .malformedIri
  | scalarInverse {md p kind origin} : md ∈ d.models → p ∈ md.properties →
    p.target = .scalar kind → p.inverseOf = some origin →
    d.Refuses (.invalidSchema (.scalarInverse md.name p.name))
  | invalidOrigin {md p target origin} : md ∈ d.models → p ∈ md.properties →
    p.target = .model target → p.inverseOf = some origin →
    d.isOrigin md.name target origin = false →
    d.Refuses (.invalidSchema (.invalidOrigin md.name target origin))
  | classUri {md} : md ∈ d.models →
    absoluteIri (md.classUri.getD (d.prefixes.classes ++ md.name)) = .error .malformedIri →
    d.Refuses .malformedIri

variable {d : SchemaDefinition} {table es : List StoredPredicate} {model : String}
  {seen : List String} {md md' : ModelDefinition} {mds : List ModelDefinition}
  {p p' : PropertyDefinition} {ps : List PropertyDefinition} {e : StoredPredicate}
  {error : Error} {kind : PropertyKind} {i : Iri} {q : Property} {m : Model} {s : Schema}

/-! ## The names of the models -/

/-- Whether a name comes again in a list: it has been seen before, or it is twice in the list. -/
def ComesAgain (seen names : List String) (name : String) : Prop :=
  name ∈ seen ∧ name ∈ names ∨ List.Duplicate name names

theorem ComesAgain.cons {names : List String} {name key : String}
    (h : ComesAgain (key :: seen) names name) : ComesAgain seen (key :: names) name := by
  rcases h with ⟨hmem, hname⟩ | htwice
  · rcases List.mem_cons.mp hmem with rfl | hmem
    · exact .inr (.cons_mem hname)
    · exact .inl ⟨hmem, List.mem_cons_of_mem _ hname⟩
  · exact .inr (htwice.duplicate_cons _)

/-- The first pass fails for a name that is no identifier, or that comes again. -/
theorem checkModelNames_eq_error (h : checkModelNames seen mds = .error error) :
    (∃ md ∈ mds, isIdentifier md.name = false ∧ .invalidSchema (.invalidName md.name) = error) ∨
      ∃ name, ComesAgain seen (mds.map (·.name)) name ∧
        .invalidSchema (.modelTwice name) = error := by
  induction mds generalizing seen with
  | nil => cases h
  | cons md mds ih =>
    simp only [checkModelNames, Outcome.bind_eq_error, SchemaFault.unless_eq_error] at h
    rcases h with ⟨hname, rfl⟩ | ⟨_, -, ⟨hseen, rfl⟩ | ⟨_, -, h⟩⟩
    · exact .inl ⟨md, List.mem_cons_self, hname, rfl⟩
    · exact .inr ⟨md.name, .inl ⟨by simpa using hseen, List.mem_cons_self⟩, rfl⟩
    · rcases ih h with ⟨md', hmd', h⟩ | ⟨name, hagain, h⟩
      · exact .inl ⟨md', List.mem_cons_of_mem _ hmd', h⟩
      · exact .inr ⟨name, hagain.cons, h⟩

/-! ## The predicates that are stored -/

theorem mem_storedOfProperty_iff (h : d.storedOfProperty model p = .ok es) :
    e ∈ es ↔ p.inverseOf = none ∧ e.model = model ∧ e.property = p.name ∧
      d.predicateOf model p = .ok e.predicate := by
  obtain ⟨model', name, i⟩ := e
  rw [storedOfProperty] at h
  cases hinverse : p.inverseOf with
  | some origin =>
    rw [hinverse] at h
    obtain rfl := Except.ok.inj h
    simp
  | none =>
    rw [hinverse] at h
    obtain ⟨i', hi, rfl⟩ := Outcome.map_eq_ok.mp h
    simp [hi, eq_comm]

theorem checkTarget_eq_ok : d.checkTarget model p = .ok () ↔
    ∀ target, p.target = .model target → target ∈ d.models.map (·.name) := by
  rw [checkTarget]
  cases p.target with
  | scalar kind => simp
  | model target => simp [SchemaFault.unless_eq_ok]

theorem checkTarget_eq_error : d.checkTarget model p = .error error ↔
    ∃ target, p.target = .model target ∧ target ∉ d.models.map (·.name) ∧
      .invalidSchema (.unknownTarget model p.name target) = error := by
  rw [checkTarget]
  cases p.target with
  | scalar kind => simp
  | model target => simp [SchemaFault.unless_eq_error]

theorem storedOfProperty_eq_error : d.storedOfProperty model p = .error error ↔
    p.inverseOf = none ∧ d.predicateOf model p = .error error := by
  rw [storedOfProperty]
  cases p.inverseOf <;> simp [Outcome.map_eq_error]

theorem succeeds_storedOfProperty (hinverse : p.inverseOf = none) :
    (d.storedOfProperty model p).Succeeds ↔ (d.predicateOf model p).Succeeds := by
  rw [storedOfProperty, hinverse]
  cases d.predicateOf model p <;> simp [Except.map]

/-- What the second pass checks of the properties of a model, and what it collects. -/
theorem storedOfModel_eq_ok (h : d.storedOfModel model seen ps = .ok es) :
    (ps.map (·.name)).Nodup ∧
      (∀ p ∈ ps, p.name ∉ seen ∧ (p.inverseOf = none → (d.predicateOf model p).Succeeds)) ∧
      ∀ e, e ∈ es ↔ ∃ p ∈ ps, p.inverseOf = none ∧ e.model = model ∧ e.property = p.name ∧
        d.predicateOf model p = .ok e.predicate := by
  induction ps generalizing seen es with
  | nil =>
    obtain rfl := Except.ok.inj h
    exact ⟨.nil, nofun, fun e => by simp⟩
  | cons p ps ih =>
    simp only [storedOfModel_cons, Outcome.bind_eq_ok, Outcome.pure_eq, Except.ok.injEq] at h
    obtain ⟨_, -, _, hseen, _, -, here, hhere, others, hothers, rfl⟩ := h
    obtain ⟨hnodup, hrest, hmem⟩ := ih hothers
    replace hseen := SchemaFault.unless_eq_ok.mp hseen
    rw [List.map_cons, List.nodup_cons, List.forall_mem_cons]
    refine ⟨⟨fun htwice => ?_, hnodup⟩, ⟨⟨by simpa using hseen, fun hinverse => ?_⟩,
      fun p' hp' => ⟨fun hold => ?_, (hrest p' hp').2⟩⟩, fun e => ?_⟩
    · obtain ⟨p', hp', hname⟩ := List.mem_map.mp htwice
      exact (hrest p' hp').1 (hname ▸ List.mem_cons_self)
    · exact (succeeds_storedOfProperty hinverse).mp ⟨here, hhere⟩
    · exact (hrest p' hp').1 (List.mem_cons_of_mem _ hold)
    · rw [List.mem_append, mem_storedOfProperty_iff hhere, hmem, List.exists_mem_cons_iff]

/-- What the second pass checks, and what it collects. -/
theorem stored_eq_ok (h : d.stored mds = .ok es) :
    (∀ md ∈ mds, (md.properties.map (·.name)).Nodup ∧
      ∀ p ∈ md.properties, p.inverseOf = none → (d.predicateOf md.name p).Succeeds) ∧
      ∀ e, e ∈ es ↔ ∃ md ∈ mds, ∃ p ∈ md.properties, p.inverseOf = none ∧ e.model = md.name ∧
        e.property = p.name ∧ d.predicateOf md.name p = .ok e.predicate := by
  induction mds generalizing es with
  | nil =>
    obtain rfl := Except.ok.inj h
    exact ⟨nofun, fun e => by simp⟩
  | cons md mds ih =>
    simp only [stored, Outcome.bind_eq_ok, Outcome.pure_eq, Except.ok.injEq] at h
    obtain ⟨here, hhere, others, hothers, rfl⟩ := h
    obtain ⟨hnodup, hprops, hmem⟩ := storedOfModel_eq_ok hhere
    obtain ⟨hrest, hmems⟩ := ih hothers
    refine ⟨List.forall_mem_cons.mpr ⟨⟨hnodup, fun p hp => (hprops p hp).2⟩, hrest⟩, fun e => ?_⟩
    rw [List.mem_append, hmem, hmems, List.exists_mem_cons_iff]

/-- Why a property is refused before its predicate is collected, or because of it. -/
theorem storedOfModel_eq_error (h : d.storedOfModel model seen ps = .error error) :
    (∃ name, ComesAgain seen (ps.map (·.name)) name ∧
      .invalidSchema (.propertyTwice model name) = error) ∨
    ∃ p ∈ ps, isIdentifier p.name = false ∧ .invalidSchema (.invalidName p.name) = error ∨
      d.checkTarget model p = .error error ∨ d.storedOfProperty model p = .error error := by
  induction ps generalizing seen with
  | nil => cases h
  | cons p ps ih =>
    rw [List.exists_mem_cons_iff]
    simp only [storedOfModel_cons, Outcome.bind_eq_error, SchemaFault.unless_eq_error,
      Outcome.pure_eq, reduceCtorEq, and_false, exists_false, or_false] at h
    rcases h with h | ⟨_, -, ⟨hseen, rfl⟩ | ⟨_, -, h | ⟨_, -, h | ⟨_, -, h⟩⟩⟩⟩
    · exact .inr (.inl (.inl h))
    · exact .inl ⟨p.name, .inl ⟨by simpa using hseen, List.mem_cons_self⟩, rfl⟩
    · exact .inr (.inl (.inr (.inl h)))
    · exact .inr (.inl (.inr (.inr h)))
    · exact (ih h).imp (fun ⟨name, hagain, h⟩ => ⟨name, hagain.cons, h⟩) .inr

/-- What the first two passes check. -/
structure Checked (d : SchemaDefinition) : Prop where
  models : (d.models.map (·.name)).Nodup ∧ ∀ md ∈ d.models, isIdentifier md.name = true
  properties : ∀ md ∈ d.models, (md.properties.map (·.name)).Nodup ∧
    ∀ p ∈ md.properties, isIdentifier p.name = true
  targets : ∀ md ∈ d.models, ∀ p ∈ md.properties, ∀ target, p.target = .model target →
    target ∈ d.models.map (·.name)

theorem checked_of_passes (hnames : checkModelNames [] d.models = .ok ())
    (hstored : d.stored d.models = .ok table) : d.Checked where
  models := ⟨(of_checkModelNames hnames).1, fun md hmd => ((of_checkModelNames hnames).2 md hmd).1⟩
  properties md hmd :=
    ⟨((stored_eq_ok hstored).1 md hmd).1, fun p hp => (checked_of_stored hstored md hmd p hp).1⟩
  targets md hmd p hp := checkTarget_eq_ok.mp (checked_of_stored hstored md hmd p hp).2

/-- A model is told by its name. -/
theorem Checked.model_ext (h : d.Checked) (hmd : md ∈ d.models) (hmd' : md' ∈ d.models)
    (hname : md.name = md'.name) : md = md' :=
  List.inj_on_of_nodup_map h.models.1 hmd hmd' hname

/-- A property is told by its name and its model. -/
theorem Checked.property_ext (h : d.Checked) (hmd : md ∈ d.models) (hp : p ∈ md.properties)
    (hp' : p' ∈ md.properties) (hname : p.name = p'.name) : p = p' :=
  List.inj_on_of_nodup_map (h.properties md hmd).1 hp hp' hname

/-- The predicate of a property that is stored is found in the table. -/
theorem storedPredicate?_eq_some (hstored : d.stored d.models = .ok table) (hchecked : d.Checked)
    (hmd : md ∈ d.models) (hp : p ∈ md.properties) (hinverse : p.inverseOf = none) :
    ∃ i, d.predicateOf md.name p = .ok i ∧ storedPredicate? table md.name p.name = some i := by
  obtain ⟨hprops, hmem⟩ := stored_eq_ok hstored
  obtain ⟨i, hi⟩ := (hprops md hmd).2 p hp hinverse
  refine ⟨i, hi, ?_⟩
  rw [storedPredicate?]
  cases hfind : table.find? fun e => e.model = md.name ∧ e.property = p.name with
  | none =>
    have hentry := (hmem ⟨md.name, p.name, i⟩).mpr ⟨md, hmd, p, hp, hinverse, rfl, rfl, hi⟩
    exact absurd (List.find?_eq_none.mp hfind _ hentry) (by simp)
  | some e =>
    -- the entry that is found is made of a property with these names, and there is only one
    have hnames : e.model = md.name ∧ e.property = p.name := by simpa using List.find?_some hfind
    obtain ⟨md', hmd', p', hp', -, hmodel, hproperty, he⟩ :=
      (hmem e).mp (List.mem_of_find?_eq_some hfind)
    obtain rfl := hchecked.model_ext hmd hmd' (hnames.1.symm.trans hmodel)
    obtain rfl := hchecked.property_ext hmd hp hp' (hnames.2.symm.trans hproperty)
    rw [hi, Except.ok.injEq] at he
    rw [Option.map_some, he]

/-! ## The properties that are made -/

/-- A property is stored by itself, and an inverse relation by the relation that it inverts. -/
def StoredBy (d : SchemaDefinition) (md : ModelDefinition) (p : PropertyDefinition)
    (md' : ModelDefinition) (p' : PropertyDefinition) : Prop :=
  md' ∈ d.models ∧ p' ∈ md'.properties ∧ p'.inverseOf = none ∧
    match p.inverseOf with
    | none => md' = md ∧ p' = p
    | some origin => p.target = .model md'.name ∧ p'.name = origin ∧ p'.target = .model md.name

theorem StoredBy.eq_self (h : d.StoredBy md p md' p') (hinverse : p.inverseOf = none) :
    md' = md ∧ p' = p := by
  obtain ⟨-, -, -, h⟩ := h
  rwa [hinverse] at h

theorem StoredBy.inverts {origin : String} (h : d.StoredBy md p md' p')
    (hinverse : p.inverseOf = some origin) :
    p.target = .model md'.name ∧ p'.name = origin ∧ p'.target = .model md.name := by
  obtain ⟨-, -, -, h⟩ := h
  rwa [hinverse] at h

theorem exists_of_isOrigin {target origin : String} (h : d.isOrigin model target origin = true) :
    ∃ md ∈ d.models, md.name = target ∧ ∃ p ∈ md.properties, p.name = origin ∧
      p.target = .model model ∧ p.inverseOf = none := by
  unfold isOrigin at h
  split at h
  · next p hp =>
    obtain ⟨md, hmd, hp⟩ := Option.bind_eq_some_iff.mp hp
    split at h
    · next pointsAt htarget hinverse =>
      obtain rfl := of_decide_eq_true h
      exact ⟨md, List.mem_of_find?_eq_some hmd, by simpa using List.find?_some hmd, p,
        List.mem_of_find?_eq_some hp, by simpa using List.find?_some hp, htarget, hinverse⟩
    · cases h
  · cases h

theorem kindOf_eq_error : d.kindOf model p = .error error ↔
    ∃ origin, p.inverseOf = some origin ∧
      ((∃ kind, p.target = .scalar kind ∧ .invalidSchema (.scalarInverse model p.name) = error) ∨
        ∃ target, p.target = .model target ∧ d.isOrigin model target origin = false ∧
          .invalidSchema (.invalidOrigin model target origin) = error) := by
  rw [kindOf]
  cases p.target <;> cases p.inverseOf <;>
    simp [Outcome.bind_eq_error, SchemaFault.unless_eq_error]

/-- Every property that points at something is stored. -/
theorem exists_storedBy (hkind : d.kindOf md.name p = .ok kind) (hmd : md ∈ d.models)
    (hp : p ∈ md.properties) : ∃ md' p', d.StoredBy md p md' p' := by
  cases hinverse : p.inverseOf with
  | none => exact ⟨md, p, hmd, hp, hinverse, by rw [hinverse]; exact ⟨rfl, rfl⟩⟩
  | some origin =>
    obtain ⟨target, htarget, horigin⟩ := (kindOf_eq_ok.mp hkind).2 origin hinverse
    obtain ⟨md', hmd', rfl, p', hp', hname, hback, hstored⟩ := exists_of_isOrigin horigin
    exact ⟨md', p', hmd', hp', hstored, by rw [hinverse]; exact ⟨htarget, hname, hback⟩⟩

/-- A property is made of its definition, with the predicate of what stores it. -/
theorem propertyOf_of_kindOf (hstored : d.stored d.models = .ok table) (hchecked : d.Checked)
    (hkind : d.kindOf md.name p = .ok kind) (hby : d.StoredBy md p md' p') :
    ∃ i, d.predicateOf md'.name p' = .ok i ∧
      d.propertyOf table md.name p = .ok ⟨p.name, i, kind, p.isArray⟩ := by
  obtain ⟨i, hi, hfound⟩ := storedPredicate?_eq_some hstored hchecked hby.1 hby.2.1 hby.2.2.1
  refine ⟨i, hi, ?_⟩
  obtain ⟨rfl, -⟩ := kindOf_eq_ok.mp hkind
  rw [propertyOf, hkind, Outcome.ok_bind]
  cases hinverse : p.inverseOf with
  | none =>
    obtain ⟨rfl, rfl⟩ := hby.eq_self hinverse
    cases htarget : p'.target <;> simp [PropertyDefinition.kind, htarget, hinverse, hfound]
  | some origin =>
    obtain ⟨htarget, rfl, -⟩ := hby.inverts hinverse
    simp [PropertyDefinition.kind, htarget, hinverse, hfound]

/-! ## Why definitions are refused -/

theorem eq_malformedIri {text : String} (h : absoluteIri text = .error error) :
    error = .malformedIri := by
  unfold absoluteIri at h
  split at h <;> cases h
  rfl

theorem refuses_of_storedOfModel (hmd : md ∈ d.models)
    (h : d.storedOfModel md.name [] md.properties = .error error) : d.Refuses error := by
  rcases storedOfModel_eq_error h with ⟨name, hagain, rfl⟩ | ⟨p, hp, ⟨hname, rfl⟩ | h | h⟩
  · exact .propertyTwice hmd (hagain.resolve_left fun h => List.not_mem_nil h.1)
  · exact .propertyName hmd hp hname
  · obtain ⟨target, htarget, hunknown, rfl⟩ := checkTarget_eq_error.mp h
    exact .unknownTarget hmd hp htarget hunknown
  · obtain ⟨hinverse, h⟩ := storedOfProperty_eq_error.mp h
    obtain rfl := eq_malformedIri h
    exact .predicate hmd hp hinverse h

theorem refuses_of_stored (hmds : ∀ md ∈ mds, md ∈ d.models) (h : d.stored mds = .error error) :
    d.Refuses error := by
  induction mds with
  | nil => cases h
  | cons md mds ih =>
    rw [List.forall_mem_cons] at hmds
    simp only [stored, Outcome.bind_eq_error, Outcome.pure_eq, reduceCtorEq, and_false,
      exists_false, or_false] at h
    rcases h with h | ⟨_, -, h⟩
    · exact refuses_of_storedOfModel hmds.1 h
    · exact ih hmds.2 h

/-- After the first two passes, a model is refused for an inverse relation without an origin, or
for its class URI. That a predicate could not be found is none of the reasons. -/
theorem refuses_of_modelOf (hstored : d.stored d.models = .ok table) (hchecked : d.Checked)
    (hmd : md ∈ d.models) (h : d.modelOf table md = .error error) : d.Refuses error := by
  simp only [modelOf, Outcome.bind_eq_error, Outcome.pure_eq, reduceCtorEq, and_false,
    exists_false, or_false] at h
  rcases h with h | ⟨_, -, h⟩
  · obtain ⟨p, hp, h⟩ := Outcome.exists_of_mapM_eq_error h
    cases hkind : d.kindOf md.name p with
    | ok kind =>
      obtain ⟨md', p', hby⟩ := exists_storedBy hkind hmd hp
      obtain ⟨i, -, hproperty⟩ := propertyOf_of_kindOf hstored hchecked hkind hby
      rw [hproperty] at h
      cases h
    | error error' =>
      rw [propertyOf, hkind, Outcome.error_bind, Except.error.injEq] at h
      subst h
      obtain ⟨origin, hinverse, ⟨kind, htarget, rfl⟩ | ⟨target, htarget, horigin, rfl⟩⟩ :=
        kindOf_eq_error.mp hkind
      · exact .scalarInverse hmd hp htarget hinverse
      · exact .invalidOrigin hmd hp htarget hinverse horigin
  · obtain rfl := eq_malformedIri h
    exact .classUri hmd h

/-- Definitions are refused for what is wrong with one of them. -/
theorem refuses_of_build (h : d.build = .error error) : d.Refuses error := by
  simp only [build, Outcome.bind_eq_error, Outcome.pure_eq, reduceCtorEq, and_false,
    exists_false, or_false] at h
  rcases h with h | ⟨_, hnames, h | ⟨table, hstored, h⟩⟩
  · rcases checkModelNames_eq_error h with ⟨md, hmd, hname, rfl⟩ | ⟨name, hagain, rfl⟩
    · exact .modelName hmd hname
    · exact .modelTwice (hagain.resolve_left fun h => List.not_mem_nil h.1)
  · exact refuses_of_stored (fun _ hmd => hmd) h
  · obtain ⟨md, hmd, h⟩ := Outcome.exists_of_mapM_eq_error h
    exact refuses_of_modelOf hstored (checked_of_passes hnames hstored) hmd h

theorem checked_of_build (h : d.build = .ok s) : d.Checked := by
  obtain ⟨table, hnames, hstored, -⟩ := build_eq_ok_iff.mp h
  exact checked_of_passes hnames hstored

/-- When a schema has been built, the kind of every property and every class URI has been
accepted. -/
theorem succeeds_of_build (h : d.build = .ok s) (hmd : md ∈ d.models) :
    (∀ p ∈ md.properties, (d.kindOf md.name p).Succeeds) ∧
      (absoluteIri (md.classUri.getD (d.prefixes.classes ++ md.name))).Succeeds := by
  obtain ⟨table, -, -, hmodels⟩ := build_eq_ok_iff.mp h
  obtain ⟨m, -, hm⟩ := exists_right_of_mem hmodels hmd
  simp only [modelOf, Outcome.bind_eq_ok] at hm
  obtain ⟨qs, hqs, i, hi, -⟩ := hm
  refine ⟨fun p hp => ?_, i, hi⟩
  obtain ⟨q, -, hq⟩ := exists_right_of_mem (Outcome.mapM_eq_ok.mp hqs) hp
  obtain ⟨kind, hkind, -⟩ := Outcome.bind_eq_ok.mp hq
  exact ⟨kind, hkind⟩

/-- Definitions are accepted if nothing is wrong with them, and only then. -/
theorem succeeds_build_iff : d.build.Succeeds ↔ ∀ error, ¬d.Refuses error := by
  constructor
  · rintro ⟨s, h⟩ error hrefuses
    have hchecked := checked_of_build h
    obtain ⟨table, -, hstored, -⟩ := build_eq_ok_iff.mp h
    cases hrefuses with
    | modelName hmd hname => simp [hchecked.models.2 _ hmd] at hname
    | modelTwice htwice => exact htwice.not_nodup hchecked.models.1
    | propertyName hmd hp hname => simp [(hchecked.properties _ hmd).2 _ hp] at hname
    | propertyTwice hmd htwice => exact htwice.not_nodup (hchecked.properties _ hmd).1
    | unknownTarget hmd hp htarget hunknown =>
      exact hunknown (hchecked.targets _ hmd _ hp _ htarget)
    | predicate hmd hp hinverse herror =>
      obtain ⟨i, hi⟩ := ((stored_eq_ok hstored).1 _ hmd).2 _ hp hinverse
      cases hi.symm.trans herror
    | scalarInverse hmd hp htarget hinverse =>
      obtain ⟨kind, hkind⟩ := (succeeds_of_build h hmd).1 _ hp
      obtain ⟨target, htarget', -⟩ := (kindOf_eq_ok.mp hkind).2 _ hinverse
      cases htarget.symm.trans htarget'
    | invalidOrigin hmd hp htarget hinverse horigin =>
      obtain ⟨kind, hkind⟩ := (succeeds_of_build h hmd).1 _ hp
      obtain ⟨target, htarget', horigin'⟩ := (kindOf_eq_ok.mp hkind).2 _ hinverse
      obtain rfl := PropertyTarget.model.inj (htarget.symm.trans htarget')
      cases horigin'.symm.trans horigin
    | classUri hmd herror =>
      obtain ⟨i, hi⟩ := (succeeds_of_build h hmd).2
      cases hi.symm.trans herror
  · intro h
    cases hbuild : d.build with
    | ok s => exact ⟨s, rfl⟩
    | error error => exact absurd (refuses_of_build hbuild) (h error)

end SchemaDefinition

end DocGraph
