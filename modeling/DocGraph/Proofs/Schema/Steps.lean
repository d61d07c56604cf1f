import DocGraph.Compile.Hop
import DocGraph.Proofs.Schema.Built
import DocGraph.Query.Spec

/-!
# The steps of a path

The segments of a path that a well-formed schema resolves are names of fields
(`isFieldSegment_of_resolve`), so they hold no character that separates segments
in a text or in the name of a variable. Only the last step may be an identifier
(`not_identity_of_mem_withoutIdentity`).
-/

namespace DocGraph

/-! ## Field segments -/

/-- Whether a character may be part of the name of a field. -/
def isFieldChar (c : Char) : Bool :=
  Rdf.Iri.isLetter c || Number.isDigit c || c == '_'

theorem isFieldSegment_of_isIdentifier {s : String} (h : isIdentifier s = true) :
    isFieldSegment s = true := by
  unfold isFieldSegment
  rw [Bool.or_eq_true]
  exact .inr h

theorem isFieldChar_of_isIdentifier {s : String} (h : isIdentifier s = true) :
    ∀ c ∈ s.toList, isFieldChar c = true := by
  unfold isIdentifier at h
  split at h
  · cases h
  · next c cs hs =>
    rw [Bool.and_eq_true, List.all_eq_true] at h
    rw [hs, List.forall_mem_cons]
    refine ⟨?_, h.2⟩
    rw [isFieldChar, h.1, Bool.true_or, Bool.true_or]

theorem isFieldChar_of_isFieldSegment {s : String} (h : isFieldSegment s = true) :
    ∀ c ∈ s.toList, isFieldChar c = true := by
  simp only [isFieldSegment, Bool.or_eq_true, decide_eq_true_eq] at h
  rcases h with (rfl | rfl) | h
  · exact List.all_eq_true.mp (by decide)
  · exact List.all_eq_true.mp (by decide)
  · exact isFieldChar_of_isIdentifier h

theorem ne_empty_of_isFieldSegment {s : String} (h : isFieldSegment s = true) : s ≠ "" := by
  rintro rfl
  exact absurd h (by decide)

/-- The characters that separate segments are in none. -/
theorem notMem_of_isFieldSegment {s : String} {c : Char} (h : isFieldSegment s = true)
    (hc : isFieldChar c = false) : c ∉ s.toList := fun hm => by
  rw [isFieldChar_of_isFieldSegment h c hm] at hc
  cases hc

/-- A name of a field is a text of one segment. -/
theorem split_of_isFieldSegment {s : String} (h : isFieldSegment s = true) :
    Text.split '.' s = [s] := by
  have hjoin : Text.join '.' [s] = s := by simp [Text.join]
  rw [← hjoin, Text.split_join, hjoin]
  · exact List.cons_ne_nil _ _
  · rw [List.forall_mem_singleton]
    exact notMem_of_isFieldSegment h (by decide)

theorem Path.ofText_of_isFieldSegment {s : String} (h : isFieldSegment s = true) :
    Path.ofText s = ⟨[s]⟩ := by
  rw [ofText, split_of_isFieldSegment h, List.filter_singleton]
  simp only [ne_empty_of_isFieldSegment h, ne_eq, not_false_eq_true, decide_true, cond_true]

/-- The reserved keys are no names of properties. -/
theorem not_reserved_of_isIdentifier {s : String} (h : isIdentifier s = true) :
    s ≠ idKey ∧ s ≠ typeKey := by
  constructor
  · rintro rfl
    exact absurd h (by decide)
  · rintro rfl
    exact absurd h (by decide)

/-! ## Resolved paths -/

namespace Schema

variable {s : Schema} {owner : Model} {segment : String}

theorem lastTarget?_cases {target : StepTarget} (h : lastTarget? owner segment = some target) :
    segment = idKey ∧ target = .identity ∨ segment = typeKey ∧ target = .type ∨
      (segment ≠ idKey ∧ segment ≠ typeKey) ∧ ∃ p, target = .property p := by
  unfold lastTarget? at h
  split at h
  · next hid => exact .inl ⟨hid, (Option.some.inj h).symm⟩
  · next hid =>
    split at h
    · next htype => exact .inr (.inl ⟨htype, (Option.some.inj h).symm⟩)
    · next htype =>
      obtain ⟨p, -, rfl⟩ := Option.map_eq_some_iff.mp h
      exact .inr (.inr ⟨⟨hid, htype⟩, p, rfl⟩)

theorem isFieldSegment_of_lastTarget? (hs : s.WellFormed) (ho : owner ∈ s.models) {t : StepTarget}
    (h : lastTarget? owner segment = some t) : isFieldSegment segment = true := by
  unfold lastTarget? at h
  split at h
  · next hid => rw [hid]; rfl
  · split at h
    · next htype => rw [htype]; rfl
    · obtain ⟨p, hp, -⟩ := Option.map_eq_some_iff.mp h
      exact isFieldSegment_of_isIdentifier (hs.isIdentifier_of_property ho hp)

theorem property_of_relation? {r : Property × String} (h : relation? owner segment = some r) :
    owner.property? segment = some r.1 ∧ r.1.relatedModel? = some r.2 := by
  unfold relation? at h
  split at h
  · cases h
  · simp only [Option.bind_eq_bind, Option.bind_eq_some_iff, Option.pure_def,
      Option.some.injEq] at h
    obtain ⟨p, hp, related, hr, rfl⟩ := h
    exact ⟨hp, hr⟩

/-- A segment in front of others names what it names at the end of a path. -/
theorem lastTarget?_of_relation? {r : Property × String} (h : relation? owner segment = some r) :
    lastTarget? owner segment = some (.property r.1) := by
  have hproperty := (property_of_relation? h).1
  unfold relation? at h
  split at h
  · cases h
  · next hreserved =>
    rw [not_or] at hreserved
    rw [lastTarget?, if_neg hreserved.1, if_neg hreserved.2, hproperty, Option.map_some]

/-- The first step of a path is what its first segment names. -/
theorem stepsFrom_cons {unknown : Error} {rest : List String} {steps : List PathStep}
    (h : s.stepsFrom unknown owner (segment :: rest) = .ok steps) :
    ∃ target further, lastTarget? owner segment = some target ∧
      steps = ⟨owner, target⟩ :: further ∧
      (rest = [] ∧ further = [] ∨ ∃ p m, relation? owner segment = some p ∧ s.model p.2 = .ok m ∧
        s.stepsFrom unknown m rest = .ok further) := by
  cases rest with
  | nil =>
    cases ht : lastTarget? owner segment with
    | none => simp [stepsFrom, ht] at h
    | some target =>
      simp only [stepsFrom, ht, Except.ok.injEq] at h
      exact ⟨target, [], rfl, h.symm, .inl ⟨rfl, rfl⟩⟩
  | cons next rest =>
    cases hr : relation? owner segment with
    | none => simp [stepsFrom, hr] at h
    | some p =>
      simp only [stepsFrom, hr, Outcome.bind_eq_ok, Outcome.pure_eq, Except.ok.injEq] at h
      obtain ⟨m, hm, further, hfurther, rfl⟩ := h
      exact ⟨_, further, lastTarget?_of_relation? hr, rfl, .inr ⟨p, m, rfl, hm, hfurther⟩⟩

theorem isFieldSegment_of_stepsFrom (hs : s.WellFormed) (unknown : Error) {segments : List String}
    {steps : List PathStep} (ho : owner ∈ s.models)
    (h : s.stepsFrom unknown owner segments = .ok steps) :
    ∀ segment ∈ segments, isFieldSegment segment = true := by
  induction segments generalizing owner steps with
  | nil => exact nofun
  | cons segment rest ih =>
    obtain ⟨target, further, htarget, rfl, hfurther⟩ := stepsFrom_cons h
    refine List.forall_mem_cons.mpr ⟨isFieldSegment_of_lastTarget? hs ho htarget, ?_⟩
    rcases hfurther with ⟨rfl, -⟩ | ⟨relation, m, -, hm, hfurther⟩
    · exact nofun
    · exact ih (mem_of_model? (model_eq_ok.mp hm)) hfurther

theorem length_of_stepsFrom {unknown : Error} {segments : List String} {steps : List PathStep}
    (h : s.stepsFrom unknown owner segments = .ok steps) : steps.length = segments.length := by
  induction segments generalizing owner steps with
  | nil => rw [← Except.ok.inj h]; rfl
  | cons segment rest ih =>
    obtain ⟨target, further, -, rfl, ⟨rfl, rfl⟩ | ⟨relation, m, -, -, hfurther⟩⟩ := stepsFrom_cons h
    · rfl
    · rw [List.length_cons, List.length_cons, ih hfurther]

/-- All steps but the last are relations. -/
theorem exists_property_of_mem_dropLast {unknown : Error} {segments : List String}
    {steps : List PathStep} (h : s.stepsFrom unknown owner segments = .ok steps) :
    ∀ step ∈ steps.dropLast, ∃ p, step.target = .property p := by
  induction segments generalizing owner steps with
  | nil => rw [← Except.ok.inj h]; exact nofun
  | cons segment rest ih =>
    obtain ⟨target, further, htarget, rfl, hfurther⟩ := stepsFrom_cons h
    rcases hfurther with ⟨-, rfl⟩ | ⟨relation, m, hrelation, -, hfurther⟩
    · exact nofun
    cases further with
    | nil => exact nofun
    | cons next others =>
      rw [List.dropLast_cons_cons, List.forall_mem_cons]
      have hlast := htarget.symm.trans (lastTarget?_of_relation? hrelation)
      exact ⟨⟨relation.1, Option.some.inj hlast⟩, ih hfurther⟩

theorem not_identity_of_mem_dropLast {unknown : Error} {segments : List String}
    {steps : List PathStep} (h : s.stepsFrom unknown owner segments = .ok steps) :
    ∀ step ∈ steps.dropLast, step.target ≠ .identity := by
  intro step hstep
  obtain ⟨p, hp⟩ := exists_property_of_mem_dropLast h step hstep
  rw [hp]
  exact nofun

theorem take_eq_nil {α β : Type} {as : List α} {bs : List β} {n : Nat}
    (hlength : as.length = bs.length) (h : bs.take n = []) : as.take n = [] := by
  rw [List.take_eq_nil_iff] at h ⊢
  exact h.imp_right fun hbs => List.length_eq_zero_iff.mp (by rw [hlength, hbs, List.length_nil])

/-- Paths that begin with the same segments begin with the same steps. -/
theorem stepsFrom_take {unknown unknown' : Error} {segments segments' : List String}
    {steps steps' : List PathStep} (h : s.stepsFrom unknown owner segments = .ok steps)
    (h' : s.stepsFrom unknown' owner segments' = .ok steps') {n : Nat}
    (htake : segments.take n = segments'.take n) : steps.take n = steps'.take n := by
  induction n generalizing owner segments segments' steps steps' with
  | zero => rfl
  | succ n ih =>
    cases segments with
    | nil =>
      cases segments' with
      | nil => rw [← Except.ok.inj h, ← Except.ok.inj h']
      | cons => cases htake
    | cons segment rest =>
      cases segments' with
      | nil => cases htake
      | cons segment' rest' =>
        obtain ⟨rfl, hrest⟩ := List.cons.inj htake
        obtain ⟨target, further, htarget, rfl, hfurther⟩ := stepsFrom_cons h
        obtain ⟨target', further', htarget', rfl, hfurther'⟩ := stepsFrom_cons h'
        obtain rfl := Option.some.inj (htarget.symm.trans htarget')
        have hlength := Nat.succ.inj (length_of_stepsFrom h)
        have hlength' := Nat.succ.inj (length_of_stepsFrom h')
        rw [List.take_succ_cons, List.take_succ_cons]
        refine congrArg _ ?_
        rcases hfurther with ⟨rfl, rfl⟩ | ⟨p, m, hp, hm, hfurther⟩
        · rw [List.take_nil] at hrest
          rw [List.take_nil, take_eq_nil hlength' hrest.symm]
        · rcases hfurther' with ⟨rfl, rfl⟩ | ⟨p', m', hp', hm', hfurther'⟩
          · rw [List.take_nil] at hrest
            rw [List.take_nil, take_eq_nil hlength hrest]
          · obtain rfl := Option.some.inj (hp.symm.trans hp')
            obtain rfl := Except.ok.inj (hm.symm.trans hm')
            exact ih hfurther hfurther' hrest

/-- The first segments of a path lead over its first steps. -/
theorem stepsFrom_prefix {unknown : Error} (unknown' : Error) {segments : List String}
    {steps : List PathStep} (h : s.stepsFrom unknown owner segments = .ok steps) (n : Nat) :
    s.stepsFrom unknown' owner (segments.take n) = .ok (steps.take n) := by
  induction n generalizing owner segments steps with
  | zero => rfl
  | succ n ih =>
    cases segments with
    | nil =>
      rw [← Except.ok.inj h]
      rfl
    | cons segment rest =>
      obtain ⟨target, further, htarget, rfl, hfurther⟩ := stepsFrom_cons h
      have hlast : s.stepsFrom unknown' owner [segment] = .ok [⟨owner, target⟩] := by
        simp only [stepsFrom, htarget]
      rw [List.take_succ_cons, List.take_succ_cons]
      rcases hfurther with ⟨rfl, rfl⟩ | ⟨p, m, hp, hm, hfurther⟩
      · rw [List.take_nil, List.take_nil, hlast]
      · have hrest := ih hfurther
        obtain rfl := Option.some.inj (htarget.symm.trans (lastTarget?_of_relation? hp))
        cases htake : rest.take n with
        | nil =>
          have hlength := length_of_stepsFrom hrest
          rw [htake, List.length_nil, List.length_eq_zero_iff] at hlength
          rw [hlength, hlast]
        | cons next rest' =>
          rw [htake] at hrest
          simp only [stepsFrom, hp, hm, hrest, Outcome.ok_bind, Outcome.pure_eq]

/-- A path ends with what its last segment names. -/
theorem getLast?_of_stepsFrom {unknown : Error} {segments : List String} {steps : List PathStep}
    (h : s.stepsFrom unknown owner segments = .ok steps) (hne : segments ≠ []) :
    ∃ step last, steps.getLast? = some step ∧ segments.getLast? = some last ∧
      lastTarget? step.owner last = some step.target := by
  induction segments generalizing owner steps with
  | nil => exact absurd rfl hne
  | cons segment rest ih =>
    obtain ⟨target, further, htarget, rfl, hfurther⟩ := stepsFrom_cons h
    have hlength := Nat.succ.inj (length_of_stepsFrom h)
    cases rest with
    | nil =>
      rw [List.length_eq_zero_iff.mp hlength]
      exact ⟨⟨owner, target⟩, segment, rfl, rfl, htarget⟩
    | cons next rest =>
      rcases hfurther with ⟨hnil, -⟩ | ⟨p, m, -, -, hfurther⟩
      · cases hnil
      · obtain ⟨step, last, hstep, hlast, ht⟩ := ih hfurther (List.cons_ne_nil _ _)
        refine ⟨step, last, ?_, by rw [List.getLast?_cons_cons, hlast], ht⟩
        rw [List.getLast?_cons, hstep]
        rfl

variable {model : String} {path : Path} {r : ResolvedPath}

theorem resolve_eq_ok :
    s.resolve model path = .ok r ↔ s.model? model = some r.root ∧
      s.stepsFrom (.unknownProperty model path.text) r.root path.segments = .ok r.steps := by
  simp only [resolve, Outcome.bind_eq_ok, Outcome.pure_eq, Except.ok.injEq, model_eq_ok]
  constructor
  · rintro ⟨root, hroot, steps, hsteps, rfl⟩
    exact ⟨hroot, hsteps⟩
  · rintro ⟨hroot, hsteps⟩
    exact ⟨_, hroot, _, hsteps, rfl⟩

/-- The segments of a path that is resolved are names of fields. -/
theorem isFieldSegment_of_resolve (hs : s.WellFormed) (h : s.resolve model path = .ok r) :
    ∀ segment ∈ path.segments, isFieldSegment segment = true := by
  obtain ⟨hroot, hsteps⟩ := resolve_eq_ok.mp h
  exact isFieldSegment_of_stepsFrom hs _ (mem_of_model? hroot) hsteps

/-- The first segments of a path are a path of its first steps. -/
theorem resolve_take (h : s.resolve model path = .ok r) (n : Nat) :
    s.resolve model (path.take n) = .ok ⟨r.root, r.steps.take n⟩ := by
  obtain ⟨hroot, hsteps⟩ := resolve_eq_ok.mp h
  exact resolve_eq_ok.mpr ⟨hroot, stepsFrom_prefix _ hsteps n⟩

/-- What a path ends with is told by its last segment. -/
theorem terminal_of_resolve (h : s.resolve model path = .ok r) (hne : path ≠ .root) :
    ∃ step, r.terminal? = some step ∧ (step.target = .identity ↔ path.isIdentity = true) ∧
      (step.target = .type ↔ path.isType = true) := by
  have hsegments : path.segments ≠ [] := fun he => hne (congrArg Path.mk he)
  obtain ⟨step, last, hstep, hlast, htarget⟩ :=
    getLast?_of_stepsFrom (resolve_eq_ok.mp h).2 hsegments
  refine ⟨step, hstep, ?_⟩
  rw [Path.isIdentity, Path.isType, Path.last?, hlast]
  rcases lastTarget?_cases htarget with ⟨rfl, ht⟩ | ⟨rfl, ht⟩ | ⟨⟨hid, htype⟩, p, ht⟩
  · rw [ht]
    decide
  · rw [ht]
    decide
  · simp [ht, hid, htype]

theorem length_of_resolve (h : s.resolve model path = .ok r) :
    r.steps.length = path.segments.length :=
  length_of_stepsFrom (resolve_eq_ok.mp h).2

/-- The hops of a path are no identifiers. -/
theorem not_identity_of_mem_withoutIdentity (h : s.resolve model path = .ok r) :
    ∀ step ∈ withoutIdentity r.steps, step.target ≠ .identity := by
  have hdrop := not_identity_of_mem_dropLast (resolve_eq_ok.mp h).2
  unfold withoutIdentity
  split
  · next last hlast =>
    split
    · exact hdrop
    · next hid =>
      intro step hstep
      obtain ⟨front, hfront⟩ := List.getLast?_eq_some_iff.mp hlast
      rw [hfront] at hdrop hstep
      rw [List.dropLast_concat] at hdrop
      rcases List.mem_append.mp hstep with hm | hm
      · exact hdrop step hm
      · rw [List.mem_singleton.mp hm]
        exact hid
  · next hnone =>
    rw [List.getLast?_eq_none_iff.mp hnone]
    exact nofun

/-! ## Paths of one key -/

variable {m : Model} {key : String} {p : Property}

theorem isFieldSegment_of_property (hs : s.WellFormed) (hm : s.model? model = some m)
    (hp : m.property? key = some p) : isFieldSegment key = true :=
  isFieldSegment_of_isIdentifier (hs.isIdentifier_of_property (mem_of_model? hm) hp)

/-- The name of a field of a model is a path of one step. -/
theorem resolve_of_lastTarget? {target : StepTarget} (hm : s.model? model = some m)
    (hkey : isFieldSegment key = true) (ht : lastTarget? m key = some target) :
    s.resolve model (.ofText key) = .ok ⟨m, [⟨m, target⟩]⟩ := by
  rw [resolve_eq_ok, Path.ofText_of_isFieldSegment hkey]
  refine ⟨hm, ?_⟩
  simp only [stepsFrom, ht]

theorem lastTarget?_of_property (hs : s.WellFormed) (hm : s.model? model = some m)
    (hp : m.property? key = some p) : lastTarget? m key = some (.property p) := by
  obtain ⟨hid, htype⟩ :=
    not_reserved_of_isIdentifier (hs.isIdentifier_of_property (mem_of_model? hm) hp)
  rw [lastTarget?, if_neg hid, if_neg htype, hp, Option.map_some]

/-- A property is reached in one step. -/
theorem resolve_property (hs : s.WellFormed) (hm : s.model? model = some m)
    (hp : m.property? key = some p) :
    s.resolve model (.ofText key) = .ok ⟨m, [⟨m, .property p⟩]⟩ :=
  resolve_of_lastTarget? hm (isFieldSegment_of_property hs hm hp)
    (lastTarget?_of_property hs hm hp)

end Schema

end DocGraph
