import DocGraph.Proofs.Dict
import DocGraph.Proofs.Outcome
import DocGraph.Schema.Definition

/-!
# What building a schema checks

What `build` gives is made pass by pass (`build_eq_ok_iff`), a model of each definition and in it
a property of each (`exists_definition`). Each of the models has the name of its definition, and
each of the properties also points at what its definition says (`of_propertyOf`).

So a schema that has been built is well-formed: every property has an identifier as its name,
which is its key, and every relation points at a model of the schema (`build_wellFormed`).
-/

namespace DocGraph

/-- What holds of the properties of a schema that has been built. -/
structure Schema.WellFormed (s : Schema) : Prop where
  isIdentifier_of_property : ∀ {m name p}, m ∈ s.models → m.property? name = some p →
    isIdentifier name = true
  name_of_property : ∀ {m name p}, m ∈ s.models → m.property? name = some p → p.name = name
  model_of_related : ∀ {m name p target}, m ∈ s.models → m.property? name = some p →
    p.relatedModel? = some target → ∃ m', s.model? target = some m'

theorem Schema.mem_of_model? {s : Schema} {name : String} {m : Model} (h : s.model? name = some m) :
    m ∈ s.models :=
  List.mem_of_find?_eq_some h

theorem Schema.model_eq_ok {s : Schema} {name : String} {m : Model} :
    s.model name = .ok m ↔ s.model? name = some m := by
  rw [model]
  cases s.model? name <;> simp

theorem Schema.property_eq_ok {s : Schema} {model name : String} {p : Property} :
    s.property model name = .ok p ↔ ∃ m, s.model? model = some m ∧ m.property? name = some p := by
  simp only [property, Outcome.bind_eq_ok, model_eq_ok]
  refine exists_congr fun m => and_congr_right fun _ => ?_
  cases m.property? name <;> simp

theorem SchemaFault.unless_eq_ok {fault : SchemaFault} {condition : Bool} :
    fault.unless condition = .ok () ↔ condition = true := by
  cases condition <;> simp [SchemaFault.unless]

/-- What the definition of a property says that it points at. -/
def PropertyDefinition.kind (p : PropertyDefinition) : PropertyKind :=
  match p.target, p.inverseOf with
  | .scalar kind, _ => .scalar kind
  | .model target, none => .relation target
  | .model target, some origin => .inverse target origin

theorem PropertyDefinition.kind_eq_relation {p : PropertyDefinition} {target : String} :
    p.kind = .relation target ↔ p.target = .model target ∧ p.inverseOf = none := by
  rw [kind]
  cases p.target <;> cases p.inverseOf <;> simp

theorem PropertyDefinition.kind_eq_inverse {p : PropertyDefinition} {target origin : String} :
    p.kind = .inverse target origin ↔ p.target = .model target ∧ p.inverseOf = some origin := by
  rw [kind]
  cases p.target <;> cases p.inverseOf <;> simp

namespace SchemaDefinition

variable {d : SchemaDefinition} {table : List StoredPredicate}

/-- The predicate of a property, if it is stored itself. -/
def storedOfProperty (d : SchemaDefinition) (model : String) (p : PropertyDefinition) :
    Outcome (List StoredPredicate) :=
  match p.inverseOf with
  | none => (d.predicateOf model p).map fun i => [⟨model, p.name, i⟩]
  | some _ => .ok []

/-- The checks of a property come before those of the others. -/
theorem storedOfModel_cons (d : SchemaDefinition) (model : String) (seen : List String)
    (p : PropertyDefinition) (ps : List PropertyDefinition) :
    d.storedOfModel model seen (p :: ps) = (do
      (SchemaFault.invalidName p.name).unless (isIdentifier p.name)
      (SchemaFault.propertyTwice model p.name).unless (!seen.contains p.name)
      d.checkTarget model p
      let here ← d.storedOfProperty model p
      let others ← d.storedOfModel model (p.name :: seen) ps
      return here ++ others) := by
  rw [storedOfModel, storedOfProperty]
  cases p.inverseOf <;> rfl

/-- Every property is checked before its predicate is collected. -/
theorem checked_of_storedOfModel {model : String} {seen : List String}
    {ps : List PropertyDefinition} {es : List StoredPredicate}
    (h : d.storedOfModel model seen ps = .ok es) :
    ∀ p ∈ ps, isIdentifier p.name = true ∧ d.checkTarget model p = .ok () := by
  induction ps generalizing seen es with
  | nil => exact nofun
  | cons p ps ih =>
    simp only [storedOfModel_cons, Outcome.bind_eq_ok] at h
    obtain ⟨_, hname, _, -, _, htarget, _, -, others, hothers, -⟩ := h
    rw [List.forall_mem_cons]
    exact ⟨⟨SchemaFault.unless_eq_ok.mp hname, htarget⟩, ih hothers⟩

theorem checked_of_stored {ms : List ModelDefinition} {es : List StoredPredicate}
    (h : d.stored ms = .ok es) :
    ∀ m ∈ ms, ∀ p ∈ m.properties, isIdentifier p.name = true ∧ d.checkTarget m.name p = .ok () := by
  induction ms generalizing es with
  | nil => exact nofun
  | cons m ms ih =>
    simp only [stored, Outcome.bind_eq_ok] at h
    obtain ⟨_, hhere, _, hrest, -⟩ := h
    rw [List.forall_mem_cons]
    exact ⟨checked_of_storedOfModel hhere, ih hrest⟩

/-- What a property points at is what its definition says, and an inverse relation has an
origin. -/
theorem kindOf_eq_ok {model : String} {p : PropertyDefinition} {kind : PropertyKind} :
    d.kindOf model p = .ok kind ↔ p.kind = kind ∧
      ∀ origin, p.inverseOf = some origin →
        ∃ target, p.target = .model target ∧ d.isOrigin model target origin = true := by
  rw [kindOf, PropertyDefinition.kind]
  cases p.target <;> cases p.inverseOf <;>
    simp [Outcome.bind_eq_ok, SchemaFault.unless_eq_ok, Unique.exists_iff, and_comm]

/-- A property is made of its definition, but for the predicate. -/
theorem of_propertyOf {model : String} {p : PropertyDefinition} {q : Property}
    (h : d.propertyOf table model p = .ok q) :
    d.kindOf model p = .ok q.kind ∧ q.name = p.name ∧ q.isArray = p.isArray := by
  simp only [propertyOf, Outcome.bind_eq_ok] at h
  obtain ⟨kind, hkind, h⟩ := h
  split at h
  · rw [Outcome.pure_eq, Except.ok.injEq] at h
    exact h ▸ ⟨hkind, rfl, rfl⟩
  · cases h

theorem name_of_propertyOf {model : String} {p : PropertyDefinition} {q : Property}
    (h : d.propertyOf table model p = .ok q) : q.name = p.name :=
  (of_propertyOf h).2.1

/-- A relation points at the model that its definition names. -/
theorem target_of_propertyOf {model target : String} {p : PropertyDefinition} {q : Property}
    (h : d.propertyOf table model p = .ok q) (hq : q.relatedModel? = some target) :
    p.target = .model target := by
  rw [Property.relatedModel?, ← (kindOf_eq_ok.mp (of_propertyOf h).1).1,
    PropertyDefinition.kind] at hq
  cases htarget : p.target with
  | scalar kind =>
    rw [htarget] at hq
    cases hq
  | model related =>
    rw [htarget] at hq
    cases hinverse : p.inverseOf <;> rw [hinverse] at hq <;> rw [Option.some.inj hq]

theorem name_of_modelOf {md : ModelDefinition} {m : Model} (h : d.modelOf table md = .ok m) :
    m.name = md.name := by
  simp only [modelOf, Outcome.bind_eq_ok, Outcome.pure_eq, Except.ok.injEq] at h
  obtain ⟨_, -, _, -, rfl⟩ := h
  rfl

/-- The property at a name is made of a definition with this name. -/
theorem exists_definition {md : ModelDefinition} {m : Model} (h : d.modelOf table md = .ok m)
    {name : String} {q : Property} (hq : m.property? name = some q) :
    q.name = name ∧ ∃ p ∈ md.properties, d.propertyOf table md.name p = .ok q := by
  simp only [modelOf, Outcome.bind_eq_ok, Outcome.pure_eq, Except.ok.injEq, Outcome.mapM_eq_ok] at h
  obtain ⟨qs, hqs, _, -, rfl⟩ := h
  obtain ⟨q', hq', he⟩ := List.mem_map.mp (Dict.mem_of_get?_ofEntries hq)
  obtain ⟨rfl, rfl⟩ := Prod.mk.inj he
  obtain ⟨p, hp, hpq⟩ := exists_left_of_mem hqs hq'
  exact ⟨rfl, p, hp, hpq⟩

/-- What the passes give, when all of them succeed. -/
theorem build_eq_ok_iff {s : Schema} : d.build = .ok s ↔
    ∃ table, checkModelNames [] d.models = .ok () ∧ d.stored d.models = .ok table ∧
      List.Forall₂ (fun md m => d.modelOf table md = .ok m) d.models s.models := by
  obtain ⟨models⟩ := s
  simp only [build, Outcome.bind_eq_ok, Outcome.pure_eq, Except.ok.injEq, Schema.mk.injEq,
    Outcome.mapM_eq_ok]
  constructor
  · rintro ⟨_, hnames, table, hstored, models', hmodels, rfl⟩
    exact ⟨table, hnames, hstored, hmodels⟩
  · rintro ⟨table, hnames, hstored, hmodels⟩
    exact ⟨(), hnames, table, hstored, models, hmodels, rfl⟩

/-- A schema that has been built is well-formed. -/
theorem build_wellFormed {s : Schema} (h : d.build = .ok s) : s.WellFormed := by
  obtain ⟨table, -, hstored, hmodels⟩ := build_eq_ok_iff.mp h
  have hchecked := checked_of_stored hstored
  have hdef {m : Model} {name : String} {q : Property} (hm : m ∈ s.models)
      (hq : m.property? name = some q) : q.name = name ∧ ∃ md ∈ d.models, ∃ p ∈ md.properties,
        d.propertyOf table md.name p = .ok q := by
    obtain ⟨md, hmd, hmodel⟩ := exists_left_of_mem hmodels hm
    obtain ⟨hname, p, hp, hpq⟩ := exists_definition hmodel hq
    exact ⟨hname, md, hmd, p, hp, hpq⟩
  refine ⟨fun hm hq => ?_, fun hm hq => (hdef hm hq).1, fun {m name q target} hm hq ht => ?_⟩
  · obtain ⟨hname, md, hmd, p, hp, hpq⟩ := hdef hm hq
    rw [← hname, name_of_propertyOf hpq]
    exact (hchecked md hmd p hp).1
  · obtain ⟨-, md, hmd, p, hp, hpq⟩ := hdef hm hq
    have hany := (hchecked md hmd p hp).2
    rw [checkTarget, target_of_propertyOf hpq ht] at hany
    obtain ⟨md', hmd', hname⟩ := List.any_eq_true.mp (SchemaFault.unless_eq_ok.mp hany)
    obtain ⟨m', hm', hmodel⟩ := exists_right_of_mem hmodels hmd'
    have hsome : (s.models.find? (·.name = target)).isSome := by
      rw [List.find?_isSome]
      exact ⟨m', hm', by simpa [name_of_modelOf hmodel] using hname⟩
    exact Option.isSome_iff_exists.mp hsome

theorem build_eq_ok {s : Schema} (h : d.build.toOption.map Schema.models = some s.models) :
    d.build = .ok s := by
  obtain ⟨models⟩ := s
  cases hbuild : d.build with
  | ok s' =>
    rw [hbuild] at h
    obtain ⟨models'⟩ := s'
    obtain rfl : models' = models := Option.some.inj h
    rfl
  | error e =>
    rw [hbuild] at h
    cases h

end SchemaDefinition

/-! ## A schema of people -/

/-- People, who have a name, an age, a birthday, nicknames, a mentor and friends. -/
def people : SchemaDefinition :=
  ⟨.ofBase "http://example.org/",
    [{ name := "Person"
       properties :=
        [{ name := "name", target := .scalar .string },
          { name := "age", target := .scalar .number },
          { name := "born", target := .scalar .date },
          { name := "nicknames", target := .scalar .string, isArray := true },
          { name := "mentor", target := .model "Person" },
          { name := "friends", target := .model "Person", isArray := true }] }]⟩

/-- The model of people. -/
def person : Model :=
  let predicate (name : String) : Rdf.Iri := ⟨"http://example.org/properties/Person/" ++ name⟩
  { name := "Person"
    classUri := ⟨"http://example.org/classes/Person"⟩
    instancePrefix := "http://example.org/instances/person/"
    properties :=
      [("age", ⟨"age", predicate "age", .scalar .number, false⟩),
        ("born", ⟨"born", predicate "born", .scalar .date, false⟩),
        ("friends", ⟨"friends", predicate "friends", .relation "Person", true⟩),
        ("mentor", ⟨"mentor", predicate "mentor", .relation "Person", false⟩),
        ("name", ⟨"name", predicate "name", .scalar .string, false⟩),
        ("nicknames", ⟨"nicknames", predicate "nicknames", .scalar .string, true⟩)] }

/-- The schema of people. -/
def peopleSchema : Schema :=
  ⟨[person]⟩

theorem people_build : people.build = .ok peopleSchema :=
  SchemaDefinition.build_eq_ok (by decide +kernel)

end DocGraph
