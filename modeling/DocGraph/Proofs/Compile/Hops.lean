import DocGraph.Proofs.Column.Variables
import DocGraph.Proofs.Query.Meaning
import DocGraph.Proofs.Select.Extend

/-!
# What hops and chains match

The elements of a hop from a known node extend a solution by the terms that the
step leads to, or test the one that its end stands for
(`mem_extendAll_hop_free`, `mem_extendAll_hop_known`). A chain has a solution for
each way along its path (`sound_chainFrom`, `complete_chainFrom`), and binds only
variables of its role.
-/

namespace DocGraph

open Rdf (Term Variable rdfType)
open Sparql (Context Expr Node Solution)

variable {s : Schema} {c : Context} {μ κ : Solution} {step : PathStep} {subject : Node}
  {x y z : Term} {es : List Element}

/-! ## Hops -/

/-- A hop is one triple, or two for an inverse relation, which say what the step
leads to. -/
theorem hop_cases {object : Node} (h : hop s subject step object = .ok es)
    (hid : step.target ≠ .identity) :
    (∃ p, es = [.statement subject p object] ∧
      ∀ g x y, step.Leads s g x y ↔ ⟨x, p, y⟩ ∈ g) ∨
    ∃ p classUri, es = [.inverse subject p object,
        .statement object rdfType (.term (.iri classUri))] ∧
      ∀ g x y, step.Leads s g x y ↔ ⟨y, p, x⟩ ∈ g ∧ ⟨y, rdfType, .iri classUri⟩ ∈ g := by
  simp only [PathStep.Leads]
  cases ht : step.target with
  | identity => exact absurd ht hid
  | type =>
    simp only [hop, ht, Except.ok.injEq] at h
    exact .inl ⟨rdfType, h.symm, fun g x y => Iff.rfl⟩
  | property p =>
    cases ho : p.origin? with
    | none =>
      simp only [hop, ht, ho, Except.ok.injEq] at h
      exact .inl ⟨p.predicate, h.symm, fun g x y => by simp only [ho]⟩
    | some r =>
      simp only [hop, ht, ho, Outcome.bind_eq_ok, Outcome.pure_eq, Except.ok.injEq] at h
      obtain ⟨classUri, hclass, rfl⟩ := h
      exact .inr ⟨p.predicate, classUri, rfl, fun g x y => by
        simp only [ho, hclass, Except.ok.injEq, exists_eq_left']⟩

/-- A hop between known nodes tests whether the step leads from one to the
other. -/
theorem mem_extendAll_hop_known {object : Node} (h : hop s subject step object = .ok es)
    (hid : step.target ≠ .identity) (hx : subject.value? c μ = some x)
    (hy : object.value? c μ = some y) :
    κ ∈ extendAll c es {μ} ↔ step.Leads s c.statements x y ∧ κ = μ := by
  rcases hop_cases h hid with ⟨p, rfl, hleads⟩ | ⟨p, classUri, rfl, hleads⟩
  · rw [mem_extendAll_statement, Sparql.mem_extensions_known hx hy, hleads]
  · rw [← List.singleton_append, mem_extendAll_append, hleads]
    simp only [mem_extendAll_inverse, mem_extendAll_statement, Sparql.mem_extensions_known hy hx]
    constructor
    · rintro ⟨ν, ⟨hp, rfl⟩, hκ⟩
      rw [Sparql.mem_extensions_known hy rfl] at hκ
      exact ⟨⟨hp, hκ.1⟩, hκ.2⟩
    · rintro ⟨⟨hp, ht⟩, hκ⟩
      exact ⟨μ, ⟨hp, rfl⟩, (Sparql.mem_extensions_known hy rfl).mpr ⟨ht, hκ⟩⟩

/-- A hop to a free variable binds it to what the step leads to. -/
theorem mem_extendAll_hop_free {v : Variable} (h : hop s subject step (.var v) = .ok es)
    (hid : step.target ≠ .identity) (hx : subject.value? c μ = some x)
    (hv : c.value? μ v = none) :
    κ ∈ extendAll c es {μ} ↔ ∃ y, step.Leads s c.statements x y ∧ κ = μ.set v y := by
  rcases hop_cases h hid with ⟨p, rfl, hleads⟩ | ⟨p, classUri, rfl, hleads⟩
  · rw [mem_extendAll_statement, Sparql.mem_extensions_object hx hv]
    simp only [hleads]
  · have hset (y : Term) : (Node.var v).value? c (μ.set v y) = some y :=
      Context.value?_set_self hv y
    rw [← List.singleton_append, mem_extendAll_append]
    simp only [mem_extendAll_inverse, mem_extendAll_statement, hleads,
      Sparql.mem_extensions_subject hx hv]
    constructor
    · rintro ⟨ν, ⟨y, hp, rfl⟩, hκ⟩
      rw [Sparql.mem_extensions_known (hset y) rfl] at hκ
      exact ⟨y, ⟨hp, hκ.1⟩, hκ.2⟩
    · rintro ⟨y, ⟨hp, ht⟩, hκ⟩
      exact ⟨μ.set v y, ⟨y, hp, rfl⟩, (Sparql.mem_extensions_known (hset y) rfl).mpr ⟨ht, hκ⟩⟩

theorem filtersOf_hop {object : Node} (h : hop s subject step object = .ok es)
    (hid : step.target ≠ .identity) : filtersOf es = [] := by
  rcases hop_cases h hid with ⟨p, rfl, -⟩ | ⟨p, classUri, rfl, -⟩ <;> rfl

/-! ## Chains -/

/-- Whether a variable has a role at a path of more than `n` segments. -/
def Role.Owns (role : Role) (n : Nat) (v : Variable) : Prop :=
  ∃ tag segments, role.tag? = some tag ∧ pieces v = tag :: segments ∧ n < segments.length

theorem Role.Owns.mono {role : Role} {m n : Nat} {v : Variable} (h : role.Owns n v) (hmn : m ≤ n) :
    role.Owns m v := by
  obtain ⟨tag, segments, htag, hv, hlt⟩ := h
  exact ⟨tag, segments, htag, hv, Nat.lt_of_le_of_lt hmn hlt⟩

theorem Role.Owns.role_eq {r r' : Role} {m n : Nat} {v : Variable} (h : r.Owns m v)
    (h' : r'.Owns n v) : r = r' := by
  obtain ⟨tag, segments, htag, hv, -⟩ := h
  obtain ⟨tag', segments', htag', hv', -⟩ := h'
  obtain rfl := (List.cons.inj (hv.symm.trans hv')).1
  exact tag?_injective htag htag'

theorem Role.Owns.isInternal {role : Role} {n : Nat} {v : Variable} (h : role.Owns n v) :
    IsInternal v := by
  obtain ⟨tag, segments, htag, hv, -⟩ := h
  exact ⟨tag, segments, hv, isFieldSegment_tag htag⟩

theorem Role.not_owns_root (role : Role) (n : Nat) : ¬role.Owns n rootVariable := by
  rintro ⟨tag, segments, -, hv, hlt⟩
  rw [pieces_rootVariable] at hv
  rw [← (List.cons.inj hv).2] at hlt
  exact Nat.not_lt_zero n hlt

/-- The variable at the first `n + 1` segments is owned beyond `n` segments, and
not beyond one more. -/
theorem owns_variableAt {role : Role} {tag : String} (htag : role.tag? = some tag)
    {segments : List String} (hplain : Plain segments) {n : Nat} (hn : n < segments.length)
    {v : Variable} (hv : variableAt role (segments.take (n + 1)) = .ok v) :
    role.Owns n v ∧ ¬role.Owns (n + 1) v := by
  have hlen : (segments.take (n + 1)).length = n + 1 := by
    rw [List.length_take]
    omega
  have hne : segments.take (n + 1) ≠ [] := List.ne_nil_of_length_pos (by omega)
  have hpieces := pieces_of_variableAt htag hv hne (hplain.take _)
  refine ⟨⟨tag, _, htag, hpieces, by omega⟩, ?_⟩
  rintro ⟨tag', segments', -, hv', hlt⟩
  rw [← (List.cons.inj (hpieces.symm.trans hv')).2] at hlt
  omega

theorem owns_fieldVariable {role : Role} {tag name : String} {v : Variable}
    (htag : role.tag? = some tag) (hname : isFieldName name = true)
    (h : fieldVariable role name = .ok v) : role.Owns 0 v :=
  ⟨tag, _, htag, pieces_of_fieldVariable htag hname h,
    List.length_pos_of_ne_nil (Text.split_ne_nil _ _)⟩

/-- The first hop of a chain, which ends in the constant or in a variable. -/
theorem chainFrom_cons {role : Role} {segments : List String} {constant : Option Term}
    {taken : Nat} {rest : List PathStep} {ch : Chain}
    (h : chainFrom s role segments constant subject taken (step :: rest) = .ok ch) :
    (∃ t here, constant = some t ∧ rest = [] ∧ hop s subject step (.term t) = .ok here ∧
      ch = ⟨here, .term t⟩) ∨
    ∃ v here further, (constant = none ∨ rest ≠ []) ∧
      variableAt role (segments.take (taken + 1)) = .ok v ∧
      hop s subject step (.var v) = .ok here ∧
      chainFrom s role segments constant (.var v) (taken + 1) rest = .ok further ∧
      ch = ⟨here ++ further.elements, further.terminal⟩ := by
  cases constant with
  | none =>
    simp only [chainFrom, Outcome.bind_eq_ok, Outcome.map_eq_ok, Outcome.pure_eq,
      Except.ok.injEq] at h
    obtain ⟨_, ⟨v, hv, rfl⟩, here, hhere, further, hfurther, rfl⟩ := h
    exact .inr ⟨v, here, further, .inl rfl, hv, hhere, hfurther, rfl⟩
  | some t =>
    cases rest with
    | nil =>
      simp only [chainFrom, Outcome.ok_bind, Outcome.bind_eq_ok, Outcome.pure_eq,
        Except.ok.injEq] at h
      obtain ⟨here, hhere, rfl⟩ := h
      exact .inl ⟨t, here, rfl, rfl, hhere, by rw [List.append_nil]⟩
    | cons next rest =>
      rw [chainFrom.eq_def] at h
      simp only [Outcome.bind_eq_ok, Outcome.map_eq_ok, Outcome.pure_eq, Except.ok.injEq] at h
      obtain ⟨_, ⟨v, hv, rfl⟩, here, hhere, further, hfurther, rfl⟩ := h
      exact .inr ⟨v, here, further, .inr (List.cons_ne_nil _ _), hv, hhere, hfurther, rfl⟩

section Chains

variable {role : Role} {tag : String} {segments : List String} {constant : Option Term}

theorem filtersOf_chainFrom {taken : Nat} {steps : List PathStep} {ch : Chain}
    (h : chainFrom s role segments constant subject taken steps = .ok ch)
    (hid : ∀ step ∈ steps, step.target ≠ .identity) : filtersOf ch.elements = [] := by
  induction steps generalizing subject taken ch with
  | nil =>
    obtain rfl := Except.ok.inj h
    rfl
  | cons step rest ih =>
    rw [List.forall_mem_cons] at hid
    rcases chainFrom_cons h with ⟨t, here, -, -, hhere, rfl⟩ |
      ⟨v, here, further, -, -, hhere, hfurther, rfl⟩
    · exact filtersOf_hop hhere hid.1
    · rw [filtersOf_append, filtersOf_hop hhere hid.1, ih hfurther hid.2, List.append_nil]

/-- With a constant the chain ends in it. -/
theorem terminal_chainFrom {t : Term} {taken : Nat} {steps : List PathStep} {ch : Chain}
    (h : chainFrom s role segments (some t) subject taken steps = .ok ch) (hne : steps ≠ []) :
    ch.terminal = .term t := by
  induction steps generalizing subject taken ch with
  | nil => exact absurd rfl hne
  | cons step rest ih =>
    rcases chainFrom_cons h with ⟨t', here, ht, -, -, rfl⟩ |
      ⟨v, here, further, hrest, -, -, hfurther, rfl⟩
    · rw [Option.some.inj ht]
    · show further.terminal = .term t
      exact ih hfurther (hrest.resolve_left (by simp))

/-- Without a constant the chain ends in its subject or in a variable of its
role. -/
theorem terminal_chainFrom_none (htag : role.tag? = some tag) (hplain : Plain segments)
    {taken : Nat} {steps : List PathStep} {ch : Chain}
    (h : chainFrom s role segments none subject taken steps = .ok ch)
    (hlen : taken + steps.length ≤ segments.length) :
    ch.terminal = subject ∨ ∃ v, ch.terminal = .var v ∧ role.Owns taken v := by
  induction steps generalizing subject taken ch with
  | nil =>
    obtain rfl := Except.ok.inj h
    exact .inl rfl
  | cons step rest ih =>
    rw [List.length_cons] at hlen
    rcases chainFrom_cons h with ⟨t', here, ht, -⟩ | ⟨v, here, further, -, hv, -, hfurther, rfl⟩
    · cases ht
    · have hown := (owns_variableAt htag hplain (n := taken) (by omega) hv).1
      rcases ih hfurther (by omega) with hterm | ⟨w, hterm, hw⟩
      · exact .inr ⟨v, hterm, hown⟩
      · exact .inr ⟨w, hterm, hw.mono (Nat.le_succ taken)⟩

/-- A variable of a role that is bound leaves the ones after it free. -/
theorem free_set {taken : Nat} {v : Variable} (hnot : ¬role.Owns (taken + 1) v)
    (hfree : ∀ w, role.Owns taken w → c.value? μ w = none) (y : Term) :
    ∀ w, role.Owns (taken + 1) w → c.value? (μ.set v y) w = none := by
  intro w hw
  have hne : w ≠ v := fun he => hnot (he ▸ hw)
  rw [c.value?_set_of_ne μ hne]
  exact hfree w (hw.mono (Nat.le_succ taken))

/-- A solution of a chain is a way along its steps to what its end stands for,
and binds only variables of its role. -/
theorem sound_chainFrom (htag : role.tag? = some tag) (hplain : Plain segments) {taken : Nat}
    {steps : List PathStep} {ch : Chain}
    (h : chainFrom s role segments constant subject taken steps = .ok ch)
    (hid : ∀ step ∈ steps, step.target ≠ .identity)
    (hlen : taken + steps.length ≤ segments.length) (hx : subject.value? c μ = some x)
    (hfree : ∀ v, role.Owns taken v → c.value? μ v = none) (hκ : κ ∈ extendAll c ch.elements {μ}) :
    (∀ v, ¬role.Owns taken v → κ v = μ v) ∧
      ∃ z, Reaches s c.statements steps x z ∧ ch.terminal.value? c κ = some z := by
  induction steps generalizing subject taken ch μ x with
  | nil =>
    obtain rfl := Except.ok.inj h
    rw [mem_extendAll_nil] at hκ
    subst hκ
    exact ⟨fun v _ => rfl, x, rfl, hx⟩
  | cons step rest ih =>
    rw [List.forall_mem_cons] at hid
    rw [List.length_cons] at hlen
    rcases chainFrom_cons h with ⟨t, here, rfl, rfl, hhere, rfl⟩ |
      ⟨v, here, further, -, hv, hhere, hfurther, rfl⟩
    · obtain ⟨hleads, rfl⟩ := (mem_extendAll_hop_known hhere hid.1 hx rfl).mp hκ
      exact ⟨fun v _ => rfl, t, ⟨t, hleads, rfl⟩, rfl⟩
    · obtain ⟨hown, hnot⟩ := owns_variableAt htag hplain (n := taken) (by omega) hv
      obtain ⟨ν, hν, hκ⟩ := mem_extendAll_append.mp hκ
      obtain ⟨y, hleads, rfl⟩ := (mem_extendAll_hop_free hhere hid.1 hx (hfree v hown)).mp hν
      obtain ⟨hframe, z, hz, hterm⟩ := ih hfurther hid.2 (by omega)
        (Context.value?_set_self (hfree v hown) y) (free_set hnot hfree y) hκ
      refine ⟨fun w hw => ?_, z, ⟨y, hleads, hz⟩, hterm⟩
      have hne : w ≠ v := fun he => hw (he ▸ hown)
      rw [hframe w fun hw' => hw (hw'.mono (Nat.le_succ taken)), Solution.set_of_ne μ hne]

/-- Every way along the steps of a chain is a solution of it. With a constant
these are the ways to the constant. -/
theorem complete_chainFrom (htag : role.tag? = some tag) (hplain : Plain segments) {taken : Nat}
    {steps : List PathStep} {ch : Chain}
    (h : chainFrom s role segments constant subject taken steps = .ok ch)
    (hid : ∀ step ∈ steps, step.target ≠ .identity)
    (hlen : taken + steps.length ≤ segments.length) (hx : subject.value? c μ = some x)
    (hfree : ∀ v, role.Owns taken v → c.value? μ v = none)
    (hz : Reaches s c.statements steps x z) (hconst : ∀ t, constant = some t → z = t) :
    ∃ κ ∈ extendAll c ch.elements {μ}, ch.terminal.value? c κ = some z := by
  induction steps generalizing subject taken ch μ x with
  | nil =>
    obtain rfl := Except.ok.inj h
    obtain rfl : x = z := hz
    exact ⟨μ, mem_extendAll_nil.mpr rfl, hx⟩
  | cons step rest ih =>
    rw [List.forall_mem_cons] at hid
    rw [List.length_cons] at hlen
    obtain ⟨y, hleads, hrest⟩ := hz
    rcases chainFrom_cons h with ⟨t, here, rfl, rfl, hhere, rfl⟩ |
      ⟨v, here, further, -, hv, hhere, hfurther, rfl⟩
    · obtain rfl : y = z := hrest
      obtain rfl := hconst t rfl
      exact ⟨μ, (mem_extendAll_hop_known hhere hid.1 hx rfl).mpr ⟨hleads, rfl⟩, rfl⟩
    · obtain ⟨hown, hnot⟩ := owns_variableAt htag hplain (n := taken) (by omega) hv
      obtain ⟨κ, hκ, hterm⟩ := ih hfurther hid.2 (by omega)
        (Context.value?_set_self (hfree v hown) y) (free_set hnot hfree y) hrest
      refine ⟨κ, mem_extendAll_append.mpr ⟨μ.set v y, ?_, hκ⟩, hterm⟩
      exact (mem_extendAll_hop_free hhere hid.1 hx (hfree v hown)).mpr ⟨y, hleads, rfl⟩

end Chains

end DocGraph
