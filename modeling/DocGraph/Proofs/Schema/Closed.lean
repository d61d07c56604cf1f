import DocGraph.Proofs.Schema.Passes
import DocGraph.Proofs.Schema.Steps
import DocGraph.Proofs.Text.Segments

/-!
# A schema that is closed

Every property of a schema that has been built is made of a definition (`exists_makes_of_build`),
and every definition makes one (`exists_model_of_build`). The relations end in the schema, and an
inverse relation in one that leads back and has its predicate (`origin_of_build`). The main
statement is `isClosed_of_build`.
-/

namespace DocGraph

namespace SchemaDefinition

variable {d : SchemaDefinition} {table : List StoredPredicate} {model : String}
  {md md' : ModelDefinition} {p p' : PropertyDefinition} {q : Property} {m : Model} {s : Schema}

/-- How a property of a schema is made of a definition. -/
structure Makes (d : SchemaDefinition) (md : ModelDefinition) (p : PropertyDefinition)
    (q : Property) : Prop where
  name : q.name = p.name
  kind : q.kind = p.kind
  isArray : q.isArray = p.isArray
  /-- The predicate is that of what stores the property. -/
  predicate : ∃ md' p', d.StoredBy md p md' p' ∧ d.predicateOf md'.name p' = .ok q.predicate

theorem makes_of_propertyOf (hstored : d.stored d.models = .ok table) (hchecked : d.Checked)
    (hmd : md ∈ d.models) (hp : p ∈ md.properties) (h : d.propertyOf table md.name p = .ok q) :
    d.Makes md p q := by
  obtain ⟨hkind, hname, hisArray⟩ := of_propertyOf h
  obtain ⟨md', p', hby⟩ := exists_storedBy hkind hmd hp
  obtain ⟨i, hi, hproperty⟩ := propertyOf_of_kindOf hstored hchecked hkind hby
  obtain rfl := congrArg Property.predicate (Except.ok.inj (hproperty.symm.trans h))
  exact ⟨hname, (kindOf_eq_ok.mp hkind).1.symm, hisArray, md', p', hby, hi⟩

/-- A model has the properties that are defined, and no others. -/
theorem properties_of_modelOf (hstored : d.stored d.models = .ok table) (hchecked : d.Checked)
    (hmd : md ∈ d.models) (h : d.modelOf table md = .ok m) :
    (Dict.keys m.properties).Perm (md.properties.map (·.name)) ∧
      ∀ p ∈ md.properties, ∃ q, m.property? p.name = some q ∧ d.Makes md p q := by
  simp only [modelOf, Outcome.bind_eq_ok, Outcome.pure_eq, Except.ok.injEq] at h
  obtain ⟨qs, hqs, _, -, rfl⟩ := h
  have hkeys : (qs.map fun q => (q.name, q)).map Prod.fst = md.properties.map (·.name) := by
    rw [List.map_map]
    exact Outcome.map_eq_of_mapM hqs fun p q hq => name_of_propertyOf hq
  have hnodup : ((qs.map fun q => (q.name, q)).map Prod.fst).Nodup :=
    hkeys ▸ (hchecked.properties md hmd).1
  constructor
  · rw [← hkeys]
    exact (Dict.perm_ofEntries hnodup).map Prod.fst
  · intro p hp
    obtain ⟨q, hq, hpq⟩ := exists_right_of_mem (Outcome.mapM_eq_ok.mp hqs) hp
    refine ⟨q, ?_, makes_of_propertyOf hstored hchecked hmd hp hpq⟩
    rw [Model.property?, ← name_of_propertyOf hpq]
    exact Dict.get?_ofEntries hnodup (List.mem_map.mpr ⟨q, hq, rfl⟩)

/-- Every model that is defined is found, with the properties that are defined. -/
theorem exists_model_of_build (h : d.build = .ok s) (hmd : md ∈ d.models) :
    ∃ m, s.model md.name = .ok m ∧ (Dict.keys m.properties).Perm (md.properties.map (·.name)) ∧
      ∀ p ∈ md.properties, ∃ q, s.property md.name p.name = .ok q ∧ d.Makes md p q := by
  obtain ⟨table, -, hstored, hmodels⟩ := build_eq_ok_iff.mp h
  obtain ⟨m, hm, hmodel⟩ := exists_right_of_mem hmodels hmd
  have hfound : s.model? md.name = some m := by
    rw [← name_of_modelOf hmodel]
    exact Schema.model?_of_mem (nodup_names_of_build h) hm
  obtain ⟨hkeys, hprops⟩ := properties_of_modelOf hstored (checked_of_build h) hmd hmodel
  refine ⟨m, Schema.model_eq_ok.mpr hfound, hkeys, fun p hp => ?_⟩
  obtain ⟨q, hq, hmakes⟩ := hprops p hp
  exact ⟨q, Schema.property_eq_ok.mpr ⟨m, hfound, hq⟩, hmakes⟩

/-- Every property of the schema is made of a definition. -/
theorem exists_makes_of_build {name : String} (h : d.build = .ok s)
    (hq : s.property model name = .ok q) :
    ∃ md ∈ d.models, md.name = model ∧ ∃ p ∈ md.properties, p.name = name ∧ d.Makes md p q := by
  obtain ⟨table, -, hstored, hmodels⟩ := build_eq_ok_iff.mp h
  obtain ⟨m, hm, hq⟩ := Schema.property_eq_ok.mp hq
  obtain ⟨md, hmd, hmodel⟩ := exists_left_of_mem hmodels (Schema.mem_of_model? hm)
  obtain ⟨hname, p, hp, hpq⟩ := exists_definition hmodel hq
  have hmodelName : m.name = model := by simpa using List.find?_some hm
  exact ⟨md, hmd, (name_of_modelOf hmodel).symm.trans hmodelName, p, hp,
    (name_of_propertyOf hpq).symm.trans hname,
    makes_of_propertyOf hstored (checked_of_build h) hmd hp hpq⟩

/-- A stored property has its own predicate. -/
theorem Makes.predicate_of_stored (h : d.Makes md p q) (hinverse : p.inverseOf = none) :
    d.predicateOf md.name p = .ok q.predicate := by
  obtain ⟨md', p', hby, hpredicate⟩ := h.predicate
  obtain ⟨rfl, rfl⟩ := hby.eq_self hinverse
  exact hpredicate

/-- The origin of an inverse relation is a relation back, and has the predicate. -/
theorem origin_of_build {name target origin : String} (h : d.build = .ok s)
    (hq : s.property model name = .ok q) (hkind : q.kind = .inverse target origin) :
    ∃ q', s.property target origin = .ok q' ∧ q'.kind = .relation model ∧
      q.predicate = q'.predicate := by
  obtain ⟨md, hmd, rfl, p, hp, rfl, hmakes⟩ := exists_makes_of_build h hq
  obtain ⟨md', p', hby, hpredicate⟩ := hmakes.predicate
  rw [hmakes.kind, PropertyDefinition.kind_eq_inverse] at hkind
  obtain ⟨htarget, hname, hback⟩ := hby.inverts hkind.2
  obtain ⟨hmd', hp', hinverse', -⟩ := hby
  obtain rfl := PropertyTarget.model.inj (htarget.symm.trans hkind.1)
  obtain ⟨m', -, -, hprops⟩ := exists_model_of_build h hmd'
  obtain ⟨q', hq', hmakes'⟩ := hprops p' hp'
  refine ⟨q', hname ▸ hq', ?_, ?_⟩
  · rw [hmakes'.kind, PropertyDefinition.kind_eq_relation]
    exact ⟨hback, hinverse'⟩
  · exact Except.ok.inj (hpredicate.symm.trans (hmakes'.predicate_of_stored hinverse'))

/-- The names of a model and of a property of it, with a dot between them, tell which property
this is. -/
theorem Checked.eq_of_dotted (h : d.Checked) (hmd : md ∈ d.models) (hmd' : md' ∈ d.models)
    (hp : p ∈ md.properties) (hp' : p' ∈ md'.properties)
    (hdotted : md.name ++ "." ++ p.name = md'.name ++ "." ++ p'.name) : md = md' ∧ p = p' := by
  have hsplit {md : ModelDefinition} {p : PropertyDefinition} (hmd : md ∈ d.models)
      (hp : p ∈ md.properties) : Text.split '.' (md.name ++ "." ++ p.name) = [md.name, p.name] := by
    have hnames : ∀ name ∈ [md.name, p.name], '.' ∉ name.toList := by
      simp only [List.forall_mem_cons, List.not_mem_nil, false_implies, implies_true, and_true]
      exact ⟨notMem_of_isFieldSegment (isFieldSegment_of_isIdentifier (h.models.2 md hmd)) rfl,
        notMem_of_isFieldSegment
          (isFieldSegment_of_isIdentifier ((h.properties md hmd).2 p hp)) rfl⟩
    have hjoin : md.name ++ "." ++ p.name = Text.join '.' [md.name, p.name] := by
      rw [Text.join_cons _ _ (List.cons_ne_nil _ _), Text.join_singleton]
      rfl
    rw [hjoin, Text.split_join '.' _ (List.cons_ne_nil _ _) hnames]
  have hlists := congrArg (Text.split '.') hdotted
  rw [hsplit hmd hp, hsplit hmd' hp'] at hlists
  obtain ⟨hmodel, hproperty⟩ := List.cons.inj hlists
  obtain rfl := h.model_ext hmd hmd' hmodel
  exact ⟨rfl, h.property_ext hmd hp hp' (List.cons.inj hproperty).1⟩

/-- How a schema is closed, and symmetric in its relations. -/
structure IsClosed (d : SchemaDefinition) (s : Schema) : Prop where
  /-- The models are those that are defined. Their names are identifiers, and none is twice. -/
  models : s.models.map (·.name) = d.models.map (·.name) ∧ (s.models.map (·.name)).Nodup ∧
    ∀ m ∈ s.models, isIdentifier m.name = true
  /-- The names of the properties of a model are identifiers, and none is twice. -/
  properties : ∀ md ∈ d.models, (md.properties.map (·.name)).Nodup ∧
    ∀ p ∈ md.properties, isIdentifier p.name = true
  /-- No two properties are called the same by the names of their models and their own. -/
  dotted : ∀ {md md' p p'}, md ∈ d.models → md' ∈ d.models → p ∈ md.properties →
    p' ∈ md'.properties → md.name ++ "." ++ p.name = md'.name ++ "." ++ p'.name →
    md = md' ∧ p = p'
  /-- Every model is found by its name, with the properties that are defined and no others. A
  stored property has the predicate that it is given, or else the default one. -/
  defined : ∀ md ∈ d.models, ∃ m, s.model md.name = .ok m ∧
    (Dict.keys m.properties).Perm (md.properties.map (·.name)) ∧
      ∀ p ∈ md.properties, ∃ q, s.property md.name p.name = .ok q ∧ q.name = p.name ∧
        q.kind = p.kind ∧ q.isArray = p.isArray ∧
          (p.inverseOf = none → d.predicateOf md.name p = .ok q.predicate)
  /-- Every relation, of either direction, is to a model of the schema. -/
  relations : ∀ {model name q target}, s.property model name = .ok q →
    q.relatedModel? = some target → ∃ m, s.model target = .ok m
  /-- An inverse relation inverts a relation to its model, and has the predicate of this one,
  whatever its own definition says. -/
  inverses : ∀ {model name q target origin}, s.property model name = .ok q →
    q.kind = .inverse target origin →
    ∃ q', s.property target origin = .ok q' ∧ q'.kind = .relation model ∧
      q.predicate = q'.predicate

/-- A schema that has been built is closed, and the predicate of no property is ever missing
when it is built. -/
theorem isClosed_of_build (d : SchemaDefinition) :
    (∀ s, d.build = .ok s → d.IsClosed s) ∧
      ∀ model property, d.build ≠ .error (.invalidSchema (.noPredicate model property)) := by
  refine ⟨fun s h => ?_, fun model property h => nomatch refuses_of_build h⟩
  obtain ⟨table, hmodels⟩ := forall₂_of_build h
  have hchecked := checked_of_build h
  exact {
    models := ⟨map_name_of_forall₂ hmodels, nodup_names_of_build h,
      fun m hm => isIdentifier_of_mem_models h hm⟩
    properties := hchecked.properties
    dotted := hchecked.eq_of_dotted
    defined := fun md hmd => by
      obtain ⟨m, hm, hkeys, hprops⟩ := exists_model_of_build h hmd
      refine ⟨m, hm, hkeys, fun p hp => ?_⟩
      obtain ⟨q, hq, hmakes⟩ := hprops p hp
      exact ⟨q, hq, hmakes.name, hmakes.kind, hmakes.isArray, hmakes.predicate_of_stored⟩
    relations := fun hq htarget => by
      obtain ⟨m, hm, hq⟩ := Schema.property_eq_ok.mp hq
      obtain ⟨m', hm'⟩ :=
        (build_wellFormed h).model_of_related (Schema.mem_of_model? hm) hq htarget
      exact ⟨m', Schema.model_eq_ok.mpr hm'⟩
    inverses := origin_of_build h }

end SchemaDefinition

/-! ## A schema of posts -/

/-- Users with their posts, and posts with their replies. Both are inverse relations, the first
one of a model that is defined later and with a predicate of its own, which does not count. -/
def blog : SchemaDefinition :=
  ⟨.ofBase "http://example.org/",
    [{ name := "User"
       properties :=
        [{ name := "name", target := .scalar .string },
          { name := "posts", target := .model "Post", isArray := true, inverseOf := some "author",
            predicate := some "http://example.org/posts" }] },
      { name := "Post"
        properties :=
        [{ name := "author", target := .model "User" },
          { name := "parent", target := .model "Post" },
          { name := "replies", target := .model "Post", isArray := true,
            inverseOf := some "parent" }] }]⟩

/-- The schema of users and posts. -/
def blogSchema : Schema :=
  let author : Rdf.Iri := ⟨"http://example.org/properties/Post/author"⟩
  let parent : Rdf.Iri := ⟨"http://example.org/properties/Post/parent"⟩
  ⟨[⟨"User", ⟨"http://example.org/classes/User"⟩, "http://example.org/instances/user/",
      [("name", ⟨"name", ⟨"http://example.org/properties/User/name"⟩, .scalar .string, false⟩),
        ("posts", ⟨"posts", author, .inverse "Post" "author", true⟩)]⟩,
    ⟨"Post", ⟨"http://example.org/classes/Post"⟩, "http://example.org/instances/post/",
      [("author", ⟨"author", author, .relation "User", false⟩),
        ("parent", ⟨"parent", parent, .relation "Post", false⟩),
        ("replies", ⟨"replies", parent, .inverse "Post" "parent", true⟩)]⟩]⟩

theorem blog_build : blog.build = .ok blogSchema :=
  SchemaDefinition.build_eq_ok (by decide +kernel)

theorem SchemaDefinition.isClosed_blog :
    blog.build = .ok blogSchema ∧ blog.IsClosed blogSchema ∧
      ∃ posts author, blogSchema.property "User" "posts" = .ok posts ∧
        blogSchema.property "Post" "author" = .ok author ∧ author.kind = .relation "User" ∧
        posts.predicate = author.predicate := by
  have hclosed := (isClosed_of_build blog).1 blogSchema blog_build
  obtain ⟨posts, hposts⟩ : ∃ posts, blogSchema.property "User" "posts" = .ok posts := ⟨_, rfl⟩
  obtain ⟨author, hauthor, hkind, hpredicate⟩ := hclosed.inverses hposts (by cases hposts; rfl)
  exact ⟨blog_build, hclosed, posts, author, hposts, hauthor, hkind, hpredicate⟩

end DocGraph
