import DocGraph.Proofs.Compile.Chains

/-!
# Filters that are compiled

The hops and the chains of a path that resolves are never refused
(`FilterScope.succeeds_path`, `FilterScope.succeeds_allOf`). A condition is compiled to what
its form without negations is compiled to (`FilterScope.compile_eliminateNot`), and its
negation to what it is compiled to under one (`FilterScope.compile_negate`).
-/

namespace DocGraph

open Outcome (Succeeds)
open Rdf (Term Variable)
open Sparql (Expr Node)

variable {s : Schema} {model : String} {path : Path} {r : ResolvedPath}

/-! ## Hops -/

/-- The property of a step is one of a model. -/
theorem Schema.exists_property_of_stepsFrom {owner : Model} {unknown : Error}
    {segments : List String} {steps : List PathStep} (ho : owner ∈ s.models)
    (h : s.stepsFrom unknown owner segments = .ok steps) {step : PathStep} (hstep : step ∈ steps)
    {p : Property} (hp : step.target = .property p) :
    ∃ m ∈ s.models, ∃ name, m.property? name = some p := by
  induction segments generalizing owner steps with
  | nil =>
    rw [← Except.ok.inj h] at hstep
    cases hstep
  | cons segment rest ih =>
    obtain ⟨target, further, htarget, rfl, hfurther⟩ := stepsFrom_cons h
    rcases List.mem_cons.mp hstep with rfl | hstep
    · obtain rfl : target = .property p := hp
      unfold lastTarget? at htarget
      split at htarget
      · cases htarget
      · split at htarget
        · cases htarget
        · obtain ⟨p', hp', he⟩ := Option.map_eq_some_iff.mp htarget
          obtain rfl := StepTarget.property.inj he
          exact ⟨owner, ho, segment, hp'⟩
    · rcases hfurther with ⟨-, rfl⟩ | ⟨relation, m, -, hm, hfurther⟩
      · cases hstep
      · exact ih (mem_of_model? (model_eq_ok.mp hm)) hfurther hstep

theorem Property.relatedModel?_of_origin? {p : Property} {origin : String × String}
    (h : p.origin? = some origin) : p.relatedModel? = some origin.1 := by
  unfold origin? at h
  unfold relatedModel?
  cases hkind : p.kind with
  | inverse m name =>
    rw [hkind] at h
    rw [← Option.some.inj h]
  | scalar | relation =>
    rw [hkind] at h
    cases h

/-- A hop over a step of a path that resolves is not refused. -/
theorem succeeds_hop (hs : s.WellFormed) (h : s.resolve model path = .ok r) :
    ∀ step ∈ r.steps, ∀ subject object, Succeeds (hop s subject step object) := by
  intro step hstep subject object
  obtain ⟨hroot, hsteps⟩ := Schema.resolve_eq_ok.mp h
  unfold hop
  cases htarget : step.target with
  | identity => exact Outcome.succeeds_ok _
  | type => exact Outcome.succeeds_ok _
  | property p =>
    obtain ⟨m, hm, name, hp⟩ :=
      Schema.exists_property_of_stepsFrom (Schema.mem_of_model? hroot) hsteps hstep htarget
    dsimp only
    cases horigin : p.origin? with
    | none => exact Outcome.succeeds_ok _
    | some origin =>
      obtain ⟨m', hm'⟩ := hs.model_of_related hm hp (Property.relatedModel?_of_origin? horigin)
      have hclass : s.classUri origin.1 = .ok m'.classUri := by
        rw [Schema.classUri, Schema.model_eq_ok.mpr hm']
        rfl
      dsimp only
      rw [hclass]
      exact Outcome.succeeds_ok _

/-! ## Chains -/

theorem succeeds_chainFrom {role : Role} {segments : List String} {constant : Option Term}
    {steps : List PathStep}
    (hhop : ∀ step ∈ steps, ∀ subject object, Succeeds (hop s subject step object))
    (hvariable : ∀ n, Succeeds (variableAt role (segments.take n))) (subject : Node) (taken : Nat) :
    Succeeds (chainFrom s role segments constant subject taken steps) := by
  induction steps generalizing subject taken with
  | nil => exact Outcome.succeeds_ok _
  | cons step rest ih =>
    rw [List.forall_mem_cons] at hhop
    obtain ⟨v, hv⟩ := hvariable (taken + 1)
    have hnode {object : Node} :
        Succeeds (do
          let here ← hop s subject step object
          let further ← chainFrom s role segments constant object (taken + 1) rest
          return (⟨here ++ further.elements, further.terminal⟩ : Chain)) := by
      obtain ⟨here, hhere⟩ := hhop.1 subject object
      obtain ⟨further, hfurther⟩ := ih hhop.2 object (taken + 1)
      rw [hhere, Outcome.ok_bind, hfurther]
      exact Outcome.succeeds_ok _
    unfold chainFrom
    rw [hv]
    split
    · exact hnode
    · exact hnode

/-- A chain over a path that resolves is not refused. -/
theorem succeeds_chain (hs : s.WellFormed) (h : s.resolve model path = .ok r) (n : Nat)
    {steps : List PathStep} (hsteps : ∀ step ∈ withoutIdentity steps, step ∈ r.steps)
    (constant : Option Term) :
    Succeeds (chain s (.filter n) path.segments steps constant) := by
  have hvariable (k : Nat) : Succeeds (variableAt (.filter n) (path.segments.take k)) :=
    ⟨_, variableAt_of_names (.ofFields (fun segment hsegment =>
      Schema.isFieldSegment_of_resolve hs h segment (List.mem_of_mem_take hsegment)) nofun)⟩
  unfold chain
  split
  · exact Outcome.succeeds_ok _
  · exact succeeds_chainFrom (fun step hstep => succeeds_hop hs h step (hsteps step hstep))
      hvariable rootNode 0

theorem mem_of_mem_withoutIdentity {steps : List PathStep} {step : PathStep}
    (h : step ∈ withoutIdentity steps) : step ∈ steps := by
  unfold withoutIdentity at h
  split at h
  · split at h
    · exact List.dropLast_subset steps h
    · exact h
  · exact h

/-! ## Comparisons -/

namespace FilterScope

variable {f : FilterScope} {c : Comparison} {n : Nat}

variable (hs : f.schema.WellFormed) (hr : f.schema.resolve f.model c.path = .ok r)
include hs hr

theorem succeeds_path (n : Nat) (constant : Option Term) :
    Succeeds (chain f.schema (.filter n) c.path.segments r.steps constant) :=
  succeeds_chain hs hr n (fun _ => mem_of_mem_withoutIdentity) constant

theorem succeeds_allOf (n : Nat) (values : List Term) :
    Succeeds (f.allOf (.filter n) c.path.segments r.steps values) := by
  unfold allOf
  dsimp only
  split
  · exact Outcome.succeeds_ok _
  · next last hlast =>
    have hhops {step : PathStep} (h : step ∈ withoutIdentity r.steps) : step ∈ r.steps :=
      mem_of_mem_withoutIdentity h
    have hfront : ∀ step ∈ withoutIdentity (withoutIdentity r.steps).dropLast, step ∈ r.steps :=
      fun step hstep => hhops (List.dropLast_subset _ (mem_of_mem_withoutIdentity hstep))
    obtain ⟨parent, hparent⟩ := succeeds_chain hs hr n hfront none
    rw [hparent, Outcome.ok_bind, Outcome.succeeds_bind_pure, Outcome.succeeds_mapM]
    exact fun v _ => succeeds_hop hs hr last (hhops (List.mem_of_getLast? hlast)) _ _

end FilterScope

/-! ## Negations -/

namespace FilterScope

variable {f : FilterScope}

mutual

/-- Negations can be eliminated before a condition is compiled. -/
theorem compile_eliminateNot (negated : Bool) (n : Nat) :
    ∀ cond : Condition, f.compile negated n cond.eliminateNot = f.compile negated n cond
  | .compare _ => rfl
  | .and children => by
    rw [Condition.eliminateNot, compile, compile]
    simp only [compileAll_eliminateNotAll, compileBranches_eliminateNotAll]
  | .or children => by
    rw [Condition.eliminateNot, compile, compile]
    simp only [compileAll_eliminateNotAll, compileBranches_eliminateNotAll]
  | .not child => by rw [Condition.eliminateNot, compile, compile_negate negated n child]

/-- The negation of a condition is compiled like the condition under a negation. -/
theorem compile_negate (negated : Bool) (n : Nat) :
    ∀ cond : Condition, f.compile negated n cond.negate = f.compile (!negated) n cond
  | .compare c => by
    cases negated
    · rfl
    · show (do return (← f.comparison n c.inverse.inverse, n + 1)) = _
      rw [Comparison.inverse_inverse]
      rfl
  | .and children => by
    rw [Condition.negate, compile, compile]
    cases negated
    · simp only [compileBranches_negateAll]
      rfl
    · simp only [compileAll_negateAll]
      rfl
  | .or children => by
    rw [Condition.negate, compile, compile]
    cases negated
    · simp only [compileAll_negateAll]
      rfl
    · simp only [compileBranches_negateAll]
      rfl
  | .not child => by
    rw [Condition.negate, compile, Bool.not_not, compile_eliminateNot negated n child]

theorem compileAll_eliminateNotAll (negated : Bool) (n : Nat) : ∀ conds : List Condition,
    f.compileAll negated n (Condition.eliminateNotAll conds) = f.compileAll negated n conds
  | [] => rfl
  | cond :: rest => by
    rw [Condition.eliminateNotAll, compileAll, compileAll, compile_eliminateNot negated n cond]
    simp only [compileAll_eliminateNotAll negated _ rest]

theorem compileAll_negateAll (negated : Bool) (n : Nat) : ∀ conds : List Condition,
    f.compileAll negated n (Condition.negateAll conds) = f.compileAll (!negated) n conds
  | [] => rfl
  | cond :: rest => by
    rw [Condition.negateAll, compileAll, compileAll, compile_negate negated n cond]
    simp only [compileAll_negateAll negated _ rest]

theorem compileBranches_eliminateNotAll (negated : Bool) (anchor : Element) (n : Nat) :
    ∀ conds : List Condition,
      f.compileBranches negated anchor n (Condition.eliminateNotAll conds) =
        f.compileBranches negated anchor n conds
  | [] => rfl
  | cond :: rest => by
    rw [Condition.eliminateNotAll, compileBranches, compileBranches,
      compile_eliminateNot negated n cond]
    simp only [compileBranches_eliminateNotAll negated anchor _ rest]

theorem compileBranches_negateAll (negated : Bool) (anchor : Element) (n : Nat) :
    ∀ conds : List Condition,
      f.compileBranches negated anchor n (Condition.negateAll conds) =
        f.compileBranches (!negated) anchor n conds
  | [] => rfl
  | cond :: rest => by
    rw [Condition.negateAll, compileBranches, compileBranches, compile_negate negated n cond]
    simp only [compileBranches_negateAll negated anchor _ rest]

end

end FilterScope

end DocGraph
