import DocGraph.Proofs.Codec.References
import Mathlib.Data.List.Nodup

/-!
# The identities that a schema gives out

A model is told by its class URI, and a document by its instance URI. The names of the
models of a schema that has been built are distinct, and so are their default class URIs.
But a class URI may be given in a definition, and what instance URIs begin with is made of
the name in lower case, or given as well, so two models may still share theirs
(`identities_of_build`).
-/

namespace DocGraph

open Rdf (Iri)
open Text (Percent.encode Percent.isEncoded Percent.isUnreserved)

/-- Whether instances of two models may have one URI: what the URIs of one begin with is
what those of the other do, and some characters that an encoded identifier has. -/
def Model.Overlaps (m₁ m₂ : Model) : Prop :=
  ∃ rest : String, (∀ c ∈ rest.toList, Percent.isEncoded c = true) ∧
    (m₂.instancePrefix = m₁.instancePrefix ++ rest ∨
      m₁.instancePrefix = m₂.instancePrefix ++ rest)

namespace Schema

variable {s : Schema} {m m₁ m₂ : Model} {id id₁ id₂ : String} {i : Iri}

/-- The one element with a key is found by it. -/
theorem find?_eq_some_of_nodup {α κ : Type} [DecidableEq κ] {key : α → κ} {as : List α} {a : α}
    (hkeys : (as.map key).Nodup) (ha : a ∈ as) : as.find? (key · = key a) = some a := by
  cases hfind : as.find? (key · = key a) with
  | none => simpa using List.find?_eq_none.mp hfind a ha
  | some b =>
    have hkey : key b = key a := by simpa using List.find?_some hfind
    rw [List.inj_on_of_nodup_map hkeys (List.mem_of_find?_eq_some hfind) ha hkey]

theorem model?_of_mem (hnames : (s.models.map (·.name)).Nodup) (hm : m ∈ s.models) :
    s.model? m.name = some m :=
  find?_eq_some_of_nodup hnames hm

/-- A model is found by its class URI if no other model has it. -/
theorem modelOfClass?_of_mem (hclasses : (s.models.map (·.classUri)).Nodup) (hm : m ∈ s.models) :
    s.modelOfClass? m.classUri.text = some m := by
  have htexts : (s.models.reverse.map (·.classUri.text)).Nodup := by
    rw [List.map_reverse, List.nodup_reverse]
    have := hclasses.map (f := Iri.text) fun i j h => congrArg Iri.mk h
    rwa [List.map_map] at this
  exact find?_eq_some_of_nodup htexts (List.mem_reverse.mpr hm)

theorem classUri_eq_ok {name : String} :
    s.classUri name = .ok i ↔ ∃ m, s.model? name = some m ∧ m.classUri = i := by
  simp only [classUri, Outcome.bind_eq_ok, model_eq_ok, Outcome.pure_eq, Except.ok.injEq]

theorem modelName_eq_ok {uri name : String} :
    s.modelName uri = .ok name ↔ ∃ m, s.modelOfClass? uri = some m ∧ m.name = name := by
  have hclass (m : Model) : s.modelOfClass uri = .ok m ↔ s.modelOfClass? uri = some m := by
    rw [modelOfClass]
    cases s.modelOfClass? uri <;> simp
  simp only [modelName, Outcome.bind_eq_ok, hclass, Outcome.pure_eq, Except.ok.injEq]

/-- Every model is found by its class URI if the class URIs are distinct, and only then. -/
theorem modelName_classUri_iff (hnames : (s.models.map (·.name)).Nodup) :
    (∀ name i, s.classUri name = .ok i → s.modelName i.text = .ok name) ↔
      (s.models.map (·.classUri)).Nodup := by
  constructor
  · intro hfound
    have hpairs := List.pairwise_map.mp hnames
    refine List.pairwise_map.mpr (hpairs.imp_of_mem fun {m₁ m₂} hm₁ hm₂ hne heq => hne ?_)
    have h₁ := hfound m₁.name m₁.classUri (classUri_eq_ok.mpr ⟨m₁, model?_of_mem hnames hm₁, rfl⟩)
    have h₂ := hfound m₂.name m₂.classUri (classUri_eq_ok.mpr ⟨m₂, model?_of_mem hnames hm₂, rfl⟩)
    rw [heq, h₂] at h₁
    exact (Except.ok.inj h₁).symm
  · intro hclasses name i hi
    obtain ⟨m, hm, rfl⟩ := classUri_eq_ok.mp hi
    have hname : m.name = name := by simpa using List.find?_some hm
    exact modelName_eq_ok.mpr ⟨m, modelOfClass?_of_mem hclasses (mem_of_model? hm), hname⟩

theorem instanceUri_of_mem (hnames : (s.models.map (·.name)).Nodup) (hm : m ∈ s.models) :
    s.instanceUri m.name id = absoluteIri (m.instancePrefix ++ Percent.encode id) := by
  rw [instanceUri, model_eq_ok.mpr (model?_of_mem hnames hm), Outcome.ok_bind]

/-- Two instances have one URI only if they are the same, or those of their models
overlap. -/
theorem eq_or_overlaps (hnames : (s.models.map (·.name)).Nodup) (hm₁ : m₁ ∈ s.models)
    (hm₂ : m₂ ∈ s.models) (h₁ : s.instanceUri m₁.name id₁ = .ok i)
    (h₂ : s.instanceUri m₂.name id₂ = .ok i) :
    m₁ = m₂ ∧ id₁ = id₂ ∨ m₁ ≠ m₂ ∧ m₁.Overlaps m₂ := by
  rw [instanceUri_of_mem hnames hm₁] at h₁
  rw [instanceUri_of_mem hnames hm₂] at h₂
  have htexts : m₁.instancePrefix ++ Percent.encode id₁ =
      m₂.instancePrefix ++ Percent.encode id₂ := by
    rw [← text_of_absoluteIri h₁, text_of_absoluteIri h₂]
  by_cases hm : m₁ = m₂
  · subst hm
    rw [String.append_right_inj] at htexts
    exact .inl ⟨rfl, Text.Percent.encode_injective htexts⟩
  · obtain ⟨rest, hrest, hbegins⟩ := Text.Percent.append_encode_eq htexts
    exact .inr ⟨hm, rest, hrest, hbegins.imp And.left And.left⟩

/-- Where the URIs of a model begin with those of another, and unreserved characters, its
instances are instances of the other by their URIs. -/
theorem instanceUri_of_append (hnames : (s.models.map (·.name)).Nodup) (hm₁ : m₁ ∈ s.models)
    (hm₂ : m₂ ∈ s.models) {rest : String} (hbegins : m₂.instancePrefix = m₁.instancePrefix ++ rest)
    (hrest : ∀ c ∈ rest.toList, Percent.isUnreserved c = true) :
    s.instanceUri m₂.name id = s.instanceUri m₁.name (rest ++ id) := by
  rw [instanceUri_of_mem hnames hm₁, instanceUri_of_mem hnames hm₂, hbegins,
    Text.Percent.encode_append, Text.Percent.encode_of_isUnreserved hrest, String.append_assoc]

end Schema

namespace SchemaDefinition

variable {d : SchemaDefinition} {table : List StoredPredicate} {s : Schema}

/-- Every model is made of its definition, in their order. -/
theorem forall₂_of_build (h : d.build = .ok s) :
    ∃ table, List.Forall₂ (fun md m => d.modelOf table md = .ok m) d.models s.models := by
  obtain ⟨table, -, -, hmodels⟩ := build_eq_ok_iff.mp h
  exact ⟨table, hmodels⟩

theorem modelOf_eq_ok {md : ModelDefinition} {m : Model} (h : d.modelOf table md = .ok m) :
    m.name = md.name ∧ m.classUri.text = md.classUri.getD (d.prefixes.classes ++ md.name) ∧
      m.instancePrefix =
        md.instancePrefix.getD (d.prefixes.instances ++ md.name.toLower ++ "/") := by
  simp only [modelOf, Outcome.bind_eq_ok, Outcome.pure_eq, Except.ok.injEq] at h
  obtain ⟨_, -, _, hclass, rfl⟩ := h
  exact ⟨rfl, Schema.text_of_absoluteIri hclass, rfl⟩

/-- The names of models are identifiers, and none is twice. -/
theorem of_checkModelNames {seen : List String} {mds : List ModelDefinition}
    (h : checkModelNames seen mds = .ok ()) :
    (mds.map (·.name)).Nodup ∧ ∀ md ∈ mds, isIdentifier md.name = true ∧ md.name ∉ seen := by
  induction mds generalizing seen with
  | nil => exact ⟨.nil, nofun⟩
  | cons md rest ih =>
    simp only [checkModelNames, Outcome.bind_eq_ok] at h
    obtain ⟨_, hname, _, hseen, h⟩ := h
    replace hname := SchemaFault.unless_eq_ok.mp hname
    replace hseen := SchemaFault.unless_eq_ok.mp hseen
    obtain ⟨hnodup, hrest⟩ := ih h
    rw [List.map_cons, List.nodup_cons, List.forall_mem_cons]
    refine ⟨⟨fun hmem => ?_, hnodup⟩, ⟨hname, by simpa using hseen⟩, fun md' hmd' => ?_⟩
    · obtain ⟨md', hmd', hname⟩ := List.mem_map.mp hmem
      exact (hrest md' hmd').2 (hname ▸ List.mem_cons_self)
    · obtain ⟨hname, hnew⟩ := hrest md' hmd'
      exact ⟨hname, fun hmem => hnew (List.mem_cons_of_mem _ hmem)⟩

theorem map_name_of_forall₂ {mds : List ModelDefinition} {ms : List Model}
    (h : List.Forall₂ (fun md m => d.modelOf table md = .ok m) mds ms) :
    ms.map (·.name) = mds.map (·.name) := by
  induction h with
  | nil => rfl
  | cons hm _ ih => rw [List.map_cons, List.map_cons, (modelOf_eq_ok hm).1, ih]

/-- No two models have one name. -/
theorem nodup_names_of_build (h : d.build = .ok s) : (s.models.map (·.name)).Nodup := by
  obtain ⟨table, hmodels⟩ := forall₂_of_build h
  obtain ⟨_, hnames, -⟩ := Outcome.bind_eq_ok.mp h
  rw [map_name_of_forall₂ hmodels]
  exact (of_checkModelNames hnames).1

/-- The name of every model is an identifier. -/
theorem isIdentifier_of_mem_models (h : d.build = .ok s) {m : Model} (hm : m ∈ s.models) :
    isIdentifier m.name = true := by
  obtain ⟨table, hmodels⟩ := forall₂_of_build h
  obtain ⟨_, hnames, -⟩ := Outcome.bind_eq_ok.mp h
  obtain ⟨md, hmd, hmodel⟩ := exists_left_of_mem hmodels hm
  rw [(modelOf_eq_ok hmodel).1]
  exact ((of_checkModelNames hnames).2 md hmd).1

/-- The model that a definition makes, found by its name. -/
theorem model?_of_build (h : d.build = .ok s) {md : ModelDefinition} (hmd : md ∈ d.models) :
    ∃ m, s.model? md.name = some m ∧
      m.classUri.text = md.classUri.getD (d.prefixes.classes ++ md.name) ∧
      m.instancePrefix =
        md.instancePrefix.getD (d.prefixes.instances ++ md.name.toLower ++ "/") := by
  obtain ⟨table, hmodels⟩ := forall₂_of_build h
  obtain ⟨m, hm, hmodel⟩ := exists_right_of_mem hmodels hmd
  obtain ⟨hname, hclass, hbegins⟩ := modelOf_eq_ok hmodel
  refine ⟨m, ?_, hclass, hbegins⟩
  rw [← hname]
  exact Schema.model?_of_mem (nodup_names_of_build h) hm

/-! ## Default identities -/

variable {md md₁ md₂ : ModelDefinition} {id id₁ id₂ : String} {i i₁ i₂ : Iri}

/-- Models with default class URIs have one of them only if they are the same. -/
theorem name_of_default_classUri (h : d.build = .ok s) (hmd₁ : md₁ ∈ d.models)
    (hmd₂ : md₂ ∈ d.models) (hdefault₁ : md₁.classUri = none) (hdefault₂ : md₂.classUri = none)
    (hclass : s.classUri md₁.name = s.classUri md₂.name) : md₁.name = md₂.name := by
  obtain ⟨m₁, hm₁, hclass₁, -⟩ := model?_of_build h hmd₁
  obtain ⟨m₂, hm₂, hclass₂, -⟩ := model?_of_build h hmd₂
  rw [Schema.classUri_eq_ok.mpr ⟨m₁, hm₁, rfl⟩, Schema.classUri_eq_ok.mpr ⟨m₂, hm₂, rfl⟩] at hclass
  rw [Except.ok.inj hclass, hclass₂, hdefault₁, hdefault₂] at hclass₁
  exact ((String.append_right_inj _).mp hclass₁).symm

theorem text_of_default_instanceUri (h : d.build = .ok s) (hmd : md ∈ d.models)
    (hdefault : md.instancePrefix = none) (hi : s.instanceUri md.name id = .ok i) :
    i.text = d.prefixes.instances ++ md.name.toLower ++ "/" ++ Percent.encode id := by
  obtain ⟨m, hm, -, hbegins⟩ := model?_of_build h hmd
  obtain ⟨m', hm', hi⟩ := Schema.instanceUri_eq_ok.mp hi
  obtain rfl := Option.some.inj (hm.symm.trans hm')
  rw [Schema.text_of_absoluteIri hi, hbegins, hdefault, Option.getD_none]

/-- A slash ends what the URIs begin with, and no encoded text has one. -/
theorem eq_of_append_slash {p q rest : String}
    (hrest : ∀ c ∈ rest.toList, Percent.isEncoded c = true) (h : q ++ "/" = p ++ "/" ++ rest) :
    q = p := by
  rcases List.eq_nil_or_concat rest.toList with hnil | ⟨cs, c, hcs⟩
  · rw [String.toList_eq_nil_iff.mp hnil, String.append_empty] at h
    exact (String.append_left_inj _).mp h
  · have hlists := congrArg String.toList h
    simp only [String.toList_append, hcs, List.concat_eq_append, ← List.append_assoc] at hlists
    obtain ⟨-, hc⟩ := List.append_inj' hlists rfl
    have hslash := hrest c (by rw [hcs]; simp)
    obtain rfl : '/' = c := by simpa using hc
    exact absurd hslash (by decide)

/-- Instances of models whose URIs begin with the default have one URI just when they have
one identifier, and their models one name in lower case. -/
theorem eq_iff_of_default_instanceUri (h : d.build = .ok s) (hmd₁ : md₁ ∈ d.models)
    (hmd₂ : md₂ ∈ d.models) (hdefault₁ : md₁.instancePrefix = none)
    (hdefault₂ : md₂.instancePrefix = none) (h₁ : s.instanceUri md₁.name id₁ = .ok i₁)
    (h₂ : s.instanceUri md₂.name id₂ = .ok i₂) :
    i₁ = i₂ ↔ md₁.name.toLower = md₂.name.toLower ∧ id₁ = id₂ := by
  have htext₁ := text_of_default_instanceUri h hmd₁ hdefault₁ h₁
  have htext₂ := text_of_default_instanceUri h hmd₂ hdefault₂ h₂
  constructor
  · rintro rfl
    have htexts := htext₁.symm.trans htext₂
    have hlower : md₁.name.toLower = md₂.name.toLower := by
      obtain ⟨rest, hrest, ⟨hbegins, -⟩ | ⟨hbegins, -⟩⟩ := Text.Percent.append_encode_eq htexts
      · exact ((String.append_right_inj _).mp (eq_of_append_slash hrest hbegins)).symm
      · exact (String.append_right_inj _).mp (eq_of_append_slash hrest hbegins)
    rw [hlower, String.append_right_inj] at htexts
    exact ⟨hlower, Text.Percent.encode_injective htexts⟩
  · rintro ⟨hlower, rfl⟩
    exact congrArg Iri.mk (by rw [htext₁, htext₂, hlower])

/-- How far the identities of the documents of a schema that has been built are distinct. -/
structure Identifies (d : SchemaDefinition) (s : Schema) : Prop where
  /-- Every model is found by its class URI if the class URIs are distinct, and only then. -/
  classes : (∀ name i, s.classUri name = .ok i → s.modelName i.text = .ok name) ↔
    (s.models.map (·.classUri)).Nodup
  /-- Two instances have one URI only if they are the same, or those of their models
  overlap. -/
  instances : ∀ {m₁ m₂ : Model} {id₁ id₂ : String} {i : Iri}, m₁ ∈ s.models → m₂ ∈ s.models →
    s.instanceUri m₁.name id₁ = .ok i → s.instanceUri m₂.name id₂ = .ok i →
    m₁ = m₂ ∧ id₁ = id₂ ∨ m₁ ≠ m₂ ∧ m₁.Overlaps m₂
  /-- If the URIs of a model begin with those of another and unreserved characters, all of
  its instances share theirs with one of the other. -/
  shared : ∀ {m₁ m₂ : Model} {rest : String} (id : String), m₁ ∈ s.models → m₂ ∈ s.models →
    m₂.instancePrefix = m₁.instancePrefix ++ rest →
    (∀ c ∈ rest.toList, Percent.isUnreserved c = true) →
    s.instanceUri m₂.name id = s.instanceUri m₁.name (rest ++ id)
  /-- Models with default class URIs have one of them only if they are the same. -/
  default_classes : ∀ {md₁ md₂ : ModelDefinition}, md₁ ∈ d.models → md₂ ∈ d.models →
    md₁.classUri = none → md₂.classUri = none →
    s.classUri md₁.name = s.classUri md₂.name → md₁.name = md₂.name
  /-- If what the URIs begin with is the default, two instances have one URI just when
  they have one identifier, and their models one name in lower case. -/
  default_instances : ∀ {md₁ md₂ : ModelDefinition} {id₁ id₂ : String} {i₁ i₂ : Iri},
    md₁ ∈ d.models → md₂ ∈ d.models → md₁.instancePrefix = none → md₂.instancePrefix = none →
    s.instanceUri md₁.name id₁ = .ok i₁ → s.instanceUri md₂.name id₂ = .ok i₂ →
    (i₁ = i₂ ↔ md₁.name.toLower = md₂.name.toLower ∧ id₁ = id₂)

/-- A schema that has been built tells its models by their class URIs as far as these are
distinct, and its documents by their instance URIs as far as those of its models do not
overlap. By default the class URIs are distinct, and the instance URIs are those of one
document if the names of the models differ in more than the case. -/
theorem identities_of_build (h : d.build = .ok s) : d.Identifies s where
  classes := Schema.modelName_classUri_iff (nodup_names_of_build h)
  instances := Schema.eq_or_overlaps (nodup_names_of_build h)
  shared _ hm₁ hm₂ hbegins hrest :=
    Schema.instanceUri_of_append (nodup_names_of_build h) hm₁ hm₂ hbegins hrest
  default_classes := name_of_default_classUri h
  default_instances := eq_iff_of_default_instanceUri h

theorem identities_people :
    (∀ name i, peopleSchema.classUri name = .ok i → peopleSchema.modelName i.text = .ok name) ∧
      ∀ id₁ id₂ i, peopleSchema.instanceUri "Person" id₁ = .ok i →
        peopleSchema.instanceUri "Person" id₂ = .ok i → id₁ = id₂ := by
  have hidentities := identities_of_build people_build
  refine ⟨hidentities.classes.mpr (by decide), fun id₁ id₂ i h₁ h₂ => ?_⟩
  have hperson : person ∈ peopleSchema.models := List.mem_singleton_self _
  rcases hidentities.instances hperson hperson h₁ h₂ with ⟨-, hid⟩ | ⟨hne, -⟩
  · exact hid
  · exact absurd rfl hne

/-- Two models of users, whose names differ in the case only. The second is given the
default class URI of the first. -/
def users : SchemaDefinition :=
  ⟨.ofBase "http://example.org/",
    [{ name := "USER" }, { name := "User", classUri := some "http://example.org/classes/USER" }]⟩

/-- The schema of users. -/
def usersSchema : Schema :=
  ⟨[⟨"USER", ⟨"http://example.org/classes/USER"⟩, "http://example.org/instances/user/", []⟩,
    ⟨"User", ⟨"http://example.org/classes/USER"⟩, "http://example.org/instances/user/", []⟩]⟩

theorem users_build : users.build = .ok usersSchema :=
  build_eq_ok (by decide +kernel)

/-- The builder compares names only: here two models have one class URI, and their
instances with one identifier have one URI. -/
theorem not_distinct_identities :
    ∃ s c i, users.build = .ok s ∧
      s.classUri "USER" = .ok c ∧ s.classUri "User" = .ok c ∧ s.modelName c.text = .ok "User" ∧
      s.instanceUri "USER" "ann" = .ok i ∧ s.instanceUri "User" "ann" = .ok i :=
  ⟨usersSchema, ⟨"http://example.org/classes/USER"⟩, ⟨"http://example.org/instances/user/ann"⟩,
    users_build, by rfl, by rfl, by rfl, by rfl, by rfl⟩

end SchemaDefinition

end DocGraph
