import DocGraph.Proofs.Schema.Closed
import Mathlib.Data.List.Chain

/-!
# The walks of a schema

A path is a walk if each of its segments but the last names a relation of the model that the
segments before lead to, and the last one names something there (`IsWalk`). A well-formed schema
resolves walks and nothing else: a relation always leads to a model, so that a path from a model
of the schema fails for a segment that names nothing (`stepsFrom_cases`). The steps of a walk
start where the steps before lead to (`walked_of_stepsFrom`).

The main statement is `followsWalks_of_build`.
-/

namespace DocGraph

/-- What a segment names at the end of a path. -/
inductive Model.Names (m : Model) : String → StepTarget → Prop
  | identity : m.Names idKey .identity
  | type : m.Names typeKey .type
  | property {segment p} : m.property? segment = some p → m.Names segment (.property p)

namespace Schema

/-- Whether a segment names a relation, of either direction, from a model to another. -/
def Relates (s : Schema) (m : Model) (segment : String) (m' : Model) : Prop :=
  ∃ p related, m.property? segment = some p ∧ p.relatedModel? = some related ∧
    s.model? related = some m'

/-- Whether segments, each of which names a relation of the model reached so far, lead from a
model to another. -/
inductive LeadsTo (s : Schema) : Model → List String → Model → Prop
  | here (m) : s.LeadsTo m [] m
  | onward {m segment m' rest m''} : s.Relates m segment m' → s.LeadsTo m' rest m'' →
    s.LeadsTo m (segment :: rest) m''

/-- Whether the segments but the last one name relations, and the last one, if there is any,
names something of the model that they lead to. -/
def IsWalk (s : Schema) (m : Model) (segments : List String) : Prop :=
  ∀ last, segments.getLast? = some last →
    ∃ m', s.LeadsTo m segments.dropLast m' ∧ ∃ target, m'.Names last target

/-- Whether a step is over a relation to the model that the next one starts from. -/
def Precedes (s : Schema) (step next : PathStep) : Prop :=
  ∃ p related, step.target = .property p ∧ p.relatedModel? = some related ∧
    s.model? related = some next.owner

variable {s : Schema} {m : Model} {segment next last model : String} {rest segments : List String}
  {target : StepTarget} {p : Property} {related : String} {steps : List PathStep}
  {unknown : Error} {path : Path} {r : ResolvedPath}

/-! ## Walks -/

theorem isWalk_nil (s : Schema) (m : Model) : s.IsWalk m [] :=
  nofun

theorem isWalk_singleton : s.IsWalk m [last] ↔ ∃ target, m.Names last target := by
  constructor
  · intro h
    obtain ⟨m', hleads, htarget⟩ := h last rfl
    cases hleads
    exact htarget
  · intro htarget last' hlast
    obtain rfl := Option.some.inj hlast
    exact ⟨m, .here m, htarget⟩

theorem isWalk_cons_cons : s.IsWalk m (segment :: next :: rest) ↔
    ∃ m', s.Relates m segment m' ∧ s.IsWalk m' (next :: rest) := by
  constructor
  · intro h
    have hlast := List.getLast?_eq_some_getLast (List.cons_ne_nil next rest)
    obtain ⟨m'', hleads, htarget⟩ := h _ hlast
    cases hleads with
    | onward hrelates hleads =>
      refine ⟨_, hrelates, fun last hlast' => ⟨m'', hleads, ?_⟩⟩
      obtain rfl := Option.some.inj (hlast.symm.trans hlast')
      exact htarget
  · rintro ⟨m', hrelates, h⟩ last hlast
    obtain ⟨m'', hleads, htarget⟩ := h last hlast
    exact ⟨m'', .onward hrelates hleads, htarget⟩

/-! ## What segments name -/

theorem lastTarget?_eq_some (hs : s.WellFormed) (hm : m ∈ s.models) :
    lastTarget? m segment = some target ↔ m.Names segment target := by
  constructor
  · intro h
    unfold lastTarget? at h
    split at h
    · next hid =>
      obtain rfl := Option.some.inj h
      exact hid ▸ .identity
    · split at h
      · next htype =>
        obtain rfl := Option.some.inj h
        exact htype ▸ .type
      · obtain ⟨p, hp, rfl⟩ := Option.map_eq_some_iff.mp h
        exact .property hp
  · intro h
    cases h with
    | identity => rfl
    | type => rfl
    | property hp =>
      obtain ⟨hid, htype⟩ := not_reserved_of_isIdentifier (hs.isIdentifier_of_property hm hp)
      rw [lastTarget?, if_neg hid, if_neg htype, hp, Option.map_some]

theorem relation?_eq_some (hs : s.WellFormed) (hm : m ∈ s.models) :
    relation? m segment = some (p, related) ↔
      m.property? segment = some p ∧ p.relatedModel? = some related := by
  constructor
  · exact property_of_relation?
  · rintro ⟨hp, hrelated⟩
    obtain ⟨hid, htype⟩ := not_reserved_of_isIdentifier (hs.isIdentifier_of_property hm hp)
    rw [relation?, if_neg (not_or.mpr ⟨hid, htype⟩), hp]
    simp [hrelated]

/-- A segment relates a model to one model at most. -/
theorem relates_iff {m' m'' : Model} (hp : m.property? segment = some p)
    (hrelated : p.relatedModel? = some related) (hm' : s.model? related = some m') :
    s.Relates m segment m'' ↔ m' = m'' := by
  constructor
  · rintro ⟨p', related', hp', hrelated', hm''⟩
    obtain rfl := Option.some.inj (hp.symm.trans hp')
    obtain rfl := Option.some.inj (hrelated.symm.trans hrelated')
    exact Option.some.inj (hm'.symm.trans hm'')
  · rintro rfl
    exact ⟨p, related, hp, hrelated, hm'⟩

/-! ## Steps -/

/-- A path from a model of the schema is a walk and has steps, or it is none and the error is that
of a segment that names nothing. -/
theorem stepsFrom_cases (hs : s.WellFormed) (unknown : Error) (segments : List String)
    (hm : m ∈ s.models) :
    s.IsWalk m segments ∧ (s.stepsFrom unknown m segments).Succeeds ∨
      ¬s.IsWalk m segments ∧ s.stepsFrom unknown m segments = .error unknown := by
  induction segments generalizing m with
  | nil => exact .inl ⟨isWalk_nil s m, [], rfl⟩
  | cons segment rest ih =>
    cases rest with
    | nil =>
      simp only [isWalk_singleton, ← lastTarget?_eq_some hs hm, stepsFrom]
      cases lastTarget? m segment <;> simp
    | cons next rest =>
      rw [isWalk_cons_cons, stepsFrom]
      cases hrelation : relation? m segment with
      | none =>
        refine .inr ⟨?_, rfl⟩
        rintro ⟨m', ⟨p, related, hp, hrelated, -⟩, -⟩
        rw [(relation?_eq_some hs hm).mpr ⟨hp, hrelated⟩] at hrelation
        cases hrelation
      | some pr =>
        obtain ⟨p, related⟩ := pr
        obtain ⟨hp, hrelated⟩ := (relation?_eq_some hs hm).mp hrelation
        -- the model that a relation names is there, so the search for it cannot fail
        obtain ⟨m', hm'⟩ := hs.model_of_related hm hp hrelated
        simp only [relates_iff hp hrelated hm', exists_eq_left', model_eq_ok.mpr hm',
          Outcome.ok_bind]
        rcases ih (mem_of_model? hm') with ⟨hwalk, hsteps⟩ | ⟨hwalk, hsteps⟩
        · exact .inl ⟨hwalk, Outcome.succeeds_bind_pure.mpr hsteps⟩
        · exact .inr ⟨hwalk, Outcome.bind_pure_eq_error.mpr hsteps⟩

/-- The steps of a path name what its segments do. The first one starts from the model that the
path starts from, and each other one from where the step before leads to. -/
theorem walked_of_stepsFrom (hs : s.WellFormed) (hm : m ∈ s.models)
    (h : s.stepsFrom unknown m segments = .ok steps) :
    List.Forall₂ (fun segment step => step.owner.Names segment step.target) segments steps ∧
      (∀ step, steps.head? = some step → step.owner = m) ∧ steps.IsChain s.Precedes := by
  induction segments generalizing m steps with
  | nil =>
    obtain rfl := Except.ok.inj h
    exact ⟨.nil, nofun, .nil⟩
  | cons segment rest ih =>
    obtain ⟨target, further, htarget, rfl, hfurther⟩ := stepsFrom_cons h
    have hnames := (lastTarget?_eq_some hs hm).mp htarget
    have hfirst : ∀ step, (⟨m, target⟩ :: further).head? = some step → step.owner = m :=
      fun step hstep => by rw [← Option.some.inj hstep]
    rcases hfurther with ⟨rfl, rfl⟩ | ⟨⟨p, related⟩, m', hrelation, hm', hfurther⟩
    · exact ⟨.cons hnames .nil, hfirst, .singleton _⟩
    · rw [model_eq_ok] at hm'
      obtain ⟨hp, hrelated⟩ := (relation?_eq_some hs hm).mp hrelation
      obtain rfl : StepTarget.property p = target :=
        Option.some.inj ((lastTarget?_of_relation? hrelation).symm.trans htarget)
      obtain ⟨hrest, hnext, hchain⟩ := ih (mem_of_model? hm') hfurther
      refine ⟨.cons hnames hrest, hfirst, List.isChain_cons.mpr ⟨fun step hstep => ?_, hchain⟩⟩
      rw [Precedes, hnext step hstep]
      exact ⟨p, related, rfl, hrelated, hm'⟩

/-! ## Resolved paths -/

/-- What the steps of a path are, if it is resolved to `r`. -/
structure AreSteps (s : Schema) (model : String) (path : Path) (r : ResolvedPath) : Prop where
  root : s.model? model = some r.root
  /-- There is one step for each segment. -/
  length : r.steps.length = path.segments.length
  /-- A step has what its segment names of its owner. -/
  names : List.Forall₂ (fun segment step => step.owner.Names segment step.target)
    path.segments r.steps
  first : ∀ step, r.steps.head? = some step → step.owner = r.root
  /-- A step starts from the model that the relation of the step before is to. -/
  further : r.steps.IsChain s.Precedes
  /-- Identifiers and types come last. -/
  last : ∀ step ∈ r.steps.dropLast, step.target ≠ .identity ∧ step.target ≠ .type
  /-- The first segments are resolved to the first steps. -/
  parts : ∀ n, s.resolve model (path.take n) = .ok ⟨r.root, r.steps.take n⟩

/-- How a path is resolved. -/
structure FollowsWalks (s : Schema) (model : String) (path : Path) : Prop where
  /-- The model where the path starts is the only one that may be missing. -/
  unknownModel : ∀ name, s.resolve model path = .error (.unknownModel name) ↔
    s.model? model = none ∧ name = model
  succeeds : ∀ m, s.model? model = some m →
    ((s.resolve model path).Succeeds ↔ s.IsWalk m path.segments)
  unknownProperty : ∀ m, s.model? model = some m → ¬s.IsWalk m path.segments →
    s.resolve model path = .error (.unknownProperty model path.text)
  steps : ∀ r, s.resolve model path = .ok r → s.AreSteps model path r

theorem areSteps_of_resolve (hs : s.WellFormed) (h : s.resolve model path = .ok r) :
    s.AreSteps model path r := by
  obtain ⟨hroot, hsteps⟩ := resolve_eq_ok.mp h
  obtain ⟨hnames, hfirst, hchain⟩ := walked_of_stepsFrom hs (mem_of_model? hroot) hsteps
  refine ⟨hroot, length_of_resolve h, hnames, hfirst, hchain, fun step hstep => ?_, resolve_take h⟩
  obtain ⟨p, hp⟩ := exists_property_of_mem_dropLast hsteps step hstep
  rw [hp]
  exact ⟨nofun, nofun⟩

/-- From a model of the schema, a path is a walk and is resolved, or it is none and the error names
the path. -/
theorem isWalk_or_resolve_eq_error (hs : s.WellFormed) (hm : s.model? model = some m)
    (path : Path) :
    s.IsWalk m path.segments ∧ (s.resolve model path).Succeeds ∨
      ¬s.IsWalk m path.segments ∧
        s.resolve model path = .error (.unknownProperty model path.text) := by
  rw [resolve, model_eq_ok.mpr hm, Outcome.ok_bind, Outcome.succeeds_bind_pure,
    Outcome.bind_pure_eq_error]
  exact stepsFrom_cases hs _ _ (mem_of_model? hm)

theorem resolve_of_model?_eq_none (hm : s.model? model = none) :
    s.resolve model path = .error (.unknownModel model) := by
  rw [resolve, Schema.model, hm]
  rfl

/-- A well-formed schema resolves the walks from a model that it has, and nothing else. -/
theorem followsWalks_of_wellFormed (hs : s.WellFormed) (model : String) (path : Path) :
    s.FollowsWalks model path := by
  have hsteps : ∀ r, s.resolve model path = .ok r → s.AreSteps model path r :=
    fun _ => areSteps_of_resolve hs
  cases hm : s.model? model with
  | none =>
    refine ⟨fun name => ?_, by simp [hm], by simp [hm], hsteps⟩
    simp [resolve_of_model?_eq_none hm, hm, eq_comm]
  | some m =>
    have hroot : ∀ m', s.model? model = some m' → m = m' :=
      fun m' hm' => Option.some.inj (hm.symm.trans hm')
    rcases isWalk_or_resolve_eq_error hs hm path with ⟨hwalk, r, hok⟩ | ⟨hwalk, herror⟩
    · refine ⟨by simp [hok, hm], fun m' hm' => ?_, fun m' hm' hnone => ?_, hsteps⟩
      · obtain rfl := hroot m' hm'
        exact iff_of_true ⟨r, hok⟩ hwalk
      · obtain rfl := hroot m' hm'
        exact absurd hwalk hnone
    · refine ⟨by simp [herror, hm], fun m' hm' => ?_, fun _ _ _ => herror, hsteps⟩
      obtain rfl := hroot m' hm'
      rw [herror]
      exact iff_of_false (Outcome.not_succeeds_error _) hwalk

/-- A schema that has been built resolves the walks from a model that it has, and nothing else,
with one step for each segment. -/
theorem followsWalks_of_build {d : SchemaDefinition} (h : d.build = .ok s) (model : String)
    (path : Path) : s.FollowsWalks model path :=
  followsWalks_of_wellFormed (SchemaDefinition.build_wellFormed h) model path

/-- From users to their posts and back, as often as one likes. -/
theorem followsWalks_around :
    ∃ user r, blog.build = .ok blogSchema ∧ blogSchema.model? "User" = some user ∧
      blogSchema.resolve "User" ⟨["posts", "author", "posts", "_id"]⟩ = .ok r ∧
      blogSchema.IsWalk user ["posts", "author", "posts", "_id"] ∧
      r.steps.IsChain blogSchema.Precedes ∧
      blogSchema.resolve "User" ⟨["posts", "author"]⟩ = .ok ⟨user, r.steps.take 2⟩ ∧
      blogSchema.resolve "Comment" ⟨["posts"]⟩ = .error (.unknownModel "Comment") := by
  have hpath := followsWalks_of_build blog_build "User" ⟨["posts", "author", "posts", "_id"]⟩
  have hcomment := followsWalks_of_build blog_build "Comment" ⟨["posts"]⟩
  obtain ⟨r, hr⟩ : ∃ r, blogSchema.resolve "User" ⟨["posts", "author", "posts", "_id"]⟩ = .ok r :=
    ⟨_, rfl⟩
  have hsteps := hpath.steps r hr
  exact ⟨r.root, r, blog_build, hsteps.root, hr, (hpath.succeeds _ hsteps.root).mp ⟨r, hr⟩,
    hsteps.further, hsteps.parts 2, (hcomment.unknownModel "Comment").mpr ⟨rfl, rfl⟩⟩

end Schema

end DocGraph
