import DocGraph.Proofs.Sparql.Semantics

/-!
# Matching triples

The solutions of a triple that extend a solution are found by matching from that
solution on (`extensions_solutions`), so a list of triples can be matched from
left to right. `extensions_object` and `extensions_subject` give the extensions of a
triple that is known but for its object or its subject.
-/

namespace DocGraph.Sparql

open Rdf (Graph Iri Statement Term Variable)
open Solutions (extensions join pair)

/-- The bag of an optional solution. -/
def Solutions.ofOption (o : Option Solution) : Solutions :=
  o.elim 0 ({·})

open Solutions (ofOption)

@[simp] theorem ofOption_none : ofOption none = 0 := rfl

@[simp] theorem ofOption_some (μ : Solution) : ofOption (some μ) = {μ} := rfl

theorem ofOption_bind (o : Option Solution) (f : Solution → Option Solution) :
    ofOption (o.bind f) = (ofOption o).bind fun μ => ofOption (f μ) := by
  cases o <;> simp

theorem filterMap_eq_bind {α : Type} (f : α → Option Solution) (as : Multiset α) :
    as.filterMap f = as.bind fun a => ofOption (f a) := by
  induction as using Multiset.induction with
  | empty => rfl
  | cons a as ih =>
    cases h : f a with
    | none =>
      rw [Multiset.filterMap_cons_none _ _ h, ih, Multiset.cons_bind, h, ofOption_none, zero_add]
    | some μ => rw [Multiset.filterMap_cons_some _ _ _ h, ih, Multiset.cons_bind, h]; rfl

/-! ## Matching from a solution on -/

theorem Solution.compatible_set {μ κ : Solution} {v : Variable} {t : Term} (hκ : κ v = none) :
    μ.Compatible (κ.set v t) ↔ μ.Compatible κ ∧ (∀ u, μ v = some u → u = t) := by
  constructor
  · intro h
    refine ⟨fun w a b ha hb => ?_, fun u hu => h v u t hu (set_self κ v t)⟩
    have hw : w ≠ v := fun e => by simp [e, hκ] at hb
    exact h w a b ha (by rw [set_of_ne κ hw, hb])
  · rintro ⟨h, hv⟩ w a b ha hb
    by_cases hw : w = v
    · subst hw
      rw [set_self] at hb
      exact (hv a ha).trans (Option.some.inj hb)
    · exact h w a b ha (by rwa [set_of_ne κ hw] at hb)

theorem Solution.merge_set_of_none {μ κ : Solution} {v : Variable} {t : Term} (h : μ v = none) :
    μ.merge (κ.set v t) = (μ.merge κ).set v t := by
  funext w
  by_cases hw : w = v
  · subst hw
    simp [merge, h]
  · simp [merge, set_of_ne _ hw]

theorem Solution.merge_set_of_some {μ κ : Solution} {v : Variable} {t : Term} (h : μ v = some t) :
    μ.merge (κ.set v t) = μ.merge κ := by
  funext w
  by_cases hw : w = v
  · subst hw
    simp [merge, h]
  · simp [merge, set_of_ne _ hw]

/-- Matching a variable that has a value commutes with merging in another solution. -/
theorem Node.match?_pair_of_value {c : Context} {κ : Solution} {v : Variable} {u : Term}
    (hv : c.value? κ v = some u) (μ : Solution) (t : Term) :
    (ofOption ((Node.var v).match? c κ t)).bind (pair μ) =
      (pair μ κ).bind fun ν => ofOption ((Node.var v).match? c ν t) := by
  by_cases h : μ.Compatible κ
  · have hm : c.value? (μ.merge κ) v = some u := by
      unfold Context.value? at hv ⊢
      cases hg : c.given v with
      | some g => simpa [hg] using hv
      | none =>
        simp only [hg, Option.none_or] at hv ⊢
        rw [h.merge_comm, Solution.merge, hv, Option.some_or]
    rw [Solutions.pair_of_compatible h, Multiset.singleton_bind]
    by_cases hu : u = t <;> simp [match?, hv, hm, hu, Solutions.pair_of_compatible h]
  · rw [Solutions.pair_of_not_compatible h]
    by_cases hu : u = t <;> simp [match?, hv, hu, Solutions.pair_of_not_compatible h]

/-- Matching a variable that is free commutes with merging in another solution, which may
have a value for it. -/
theorem Node.match?_pair_of_unbound {c : Context} {κ : Solution} {v : Variable}
    (hv : c.value? κ v = none) (μ : Solution) (t : Term) :
    (ofOption ((Node.var v).match? c κ t)).bind (pair μ) =
      (pair μ κ).bind fun ν => ofOption ((Node.var v).match? c ν t) := by
  have hg : c.given v = none := by
    cases hg : c.given v with
    | none => rfl
    | some g => simp [Context.value?, hg] at hv
  have hκ : κ v = none := by simpa [Context.value?, hg] using hv
  have hset : ofOption ((Node.var v).match? c κ t) = {κ.set v t} := by simp [match?, hv]
  have hcompat := Solution.compatible_set (μ := μ) (t := t) hκ
  rw [hset, Multiset.singleton_bind]
  by_cases h : μ.Compatible κ
  · rw [Solutions.pair_of_compatible h, Multiset.singleton_bind]
    have hm : c.value? (μ.merge κ) v = μ v := by
      simp [Context.value?, hg, Solution.merge, hκ]
    cases hμ : μ v with
    | none =>
      have hc : μ.Compatible (κ.set v t) := hcompat.mpr ⟨h, by simp [hμ]⟩
      rw [Solutions.pair_of_compatible hc, Solution.merge_set_of_none hμ]
      simp [match?, hm, hμ]
    | some u =>
      by_cases hu : u = t
      · subst hu
        have hc : μ.Compatible (κ.set v u) := hcompat.mpr ⟨h, by simp [hμ]⟩
        rw [Solutions.pair_of_compatible hc, Solution.merge_set_of_some hμ]
        simp [match?, hm, hμ]
      · have hc : ¬μ.Compatible (κ.set v t) := fun hc => hu ((hcompat.mp hc).2 u hμ)
        rw [Solutions.pair_of_not_compatible hc]
        simp [match?, hm, hμ, hu]
  · have hc : ¬μ.Compatible (κ.set v t) := fun hc => h (hcompat.mp hc).1
    rw [Solutions.pair_of_not_compatible hc, Solutions.pair_of_not_compatible h,
      Multiset.zero_bind]

/-- Matching a node commutes with merging in another solution. -/
theorem Node.match?_pair (c : Context) (μ κ : Solution) (n : Node) (t : Term) :
    (ofOption (n.match? c κ t)).bind (pair μ) =
      (pair μ κ).bind fun ν => ofOption (n.match? c ν t) := by
  cases n with
  | term u =>
    by_cases hu : u = t <;> by_cases h : μ.Compatible κ <;>
      simp [match?, hu, h, Solutions.pair_of_compatible, Solutions.pair_of_not_compatible]
  | var v =>
    cases hv : c.value? κ v with
    | some u => exact match?_pair_of_value hv μ t
    | none => exact match?_pair_of_unbound hv μ t

theorem Predicate.match?_pair (c : Context) (μ κ : Solution) (p : Predicate) (i : Iri) :
    (ofOption (p.match? c κ i)).bind (pair μ) =
      (pair μ κ).bind fun ν => ofOption (p.match? c ν i) := by
  cases p with
  | var v => exact Node.match?_pair c μ κ (.var v) (.iri i)
  | iri j =>
    by_cases hj : j = i <;> by_cases h : μ.Compatible κ <;>
      simp [match?, hj, h, Solutions.pair_of_compatible, Solutions.pair_of_not_compatible]

/-- Matching a triple commutes with merging in another solution. -/
theorem Triple.match?_pair (c : Context) (μ κ : Solution) (t : Triple) (s : Statement) :
    (ofOption (t.match? c κ s)).bind (pair μ) =
      (pair μ κ).bind fun ν => ofOption (t.match? c ν s) := by
  have hsplit : ∀ κ, ofOption (t.match? c κ s) =
      (ofOption (t.subject.match? c κ s.subject)).bind fun ν =>
        (ofOption (t.predicate.match? c ν s.predicate)).bind fun ν =>
          ofOption (t.object.match? c ν s.object) := by
    intro κ
    simp only [match?, Option.bind_eq_bind, ofOption_bind]
  simp only [hsplit, Multiset.bind_assoc, Node.match?_pair]
  simp only [← Multiset.bind_assoc, Predicate.match?_pair]
  simp only [Multiset.bind_assoc]
  simp only [← Multiset.bind_assoc, Node.match?_pair]

/-- The extensions of a solution by those of a triple are found by matching the
triple from that solution on. -/
theorem extensions_solutions (c : Context) (μ : Solution) (t : Triple) :
    extensions μ (t.solutions c) = c.statements.val.filterMap (t.match? c μ) := by
  rw [extensions, Triple.solutions, filterMap_eq_bind, filterMap_eq_bind, Multiset.bind_assoc]
  refine Multiset.bind_congr fun s _ => ?_
  rw [Triple.match?_pair, Solutions.pair_of_compatible (Solution.compatible_empty_right μ),
    Multiset.singleton_bind, Solution.merge_empty]

/-! ## Known nodes -/

/-- The term that a node stands for. -/
def Node.value? (c : Context) (μ : Solution) : Node → Option Term
  | .term t => some t
  | .var v => c.value? μ v

theorem Node.match?_of_value {c : Context} {μ : Solution} {n : Node} {x : Term}
    (h : n.value? c μ = some x) (t : Term) :
    n.match? c μ t = if x = t then some μ else none := by
  cases n with
  | term u =>
    obtain rfl : u = x := Option.some.inj h
    rfl
  | var v => simp only [match?, show c.value? μ v = some x from h]

theorem Node.match?_of_unbound {c : Context} {μ : Solution} {v : Variable}
    (h : c.value? μ v = none) (t : Term) : (Node.var v).match? c μ t = some (μ.set v t) := by
  simp only [match?, h]

/-- Without a substitution a variable stands for what it is bound to. -/
theorem Context.value?_eq {c : Context} (hc : c.given = .empty) (μ : Solution) (v : Variable) :
    c.value? μ v = μ v := by
  rw [value?, hc, Solution.empty_apply, Option.none_or]

theorem Context.value?_set_of_ne (c : Context) (μ : Solution) {v w : Variable} (h : w ≠ v)
    (t : Term) : c.value? (μ.set v t) w = c.value? μ w := by
  rw [value?, value?, Solution.set_of_ne μ h]

theorem Context.value?_set_self {c : Context} {μ : Solution} {v : Variable}
    (h : c.value? μ v = none) (t : Term) : c.value? (μ.set v t) v = some t := by
  have hg : c.given v = none := by
    cases hg : c.given v with
    | none => rfl
    | some g => simp [value?, hg] at h
  rw [value?, hg, Option.none_or, Solution.set_self]

/-- A variable that is bound has another value than one that is not. -/
theorem Node.value?_set {c : Context} {μ : Solution} {n : Node} {x : Term} {v : Variable}
    (hn : n.value? c μ = some x) (hv : c.value? μ v = none) (t : Term) :
    n.value? c (μ.set v t) = some x := by
  cases n with
  | term u => exact hn
  | var w =>
    have hw : w ≠ v := fun e => by simp [value?, e, hv] at hn
    exact (c.value?_set_of_ne μ hw t).trans hn

/-- A triple between two known nodes is a test. -/
theorem mem_extensions_known {c : Context} {μ κ : Solution} {a b : Node} {p : Iri} {x y : Term}
    (ha : a.value? c μ = some x) (hb : b.value? c μ = some y) :
    κ ∈ extensions μ (Triple.solutions c ⟨a, .iri p, b⟩) ↔ ⟨x, p, y⟩ ∈ c.statements ∧ κ = μ := by
  simp only [extensions_solutions, Multiset.mem_filterMap, Triple.match?, Predicate.match?,
    Node.match?_of_value ha, Option.bind_eq_bind]
  constructor
  · rintro ⟨⟨x', p', y'⟩, hs, hm⟩
    by_cases hx : x = x' <;> by_cases hp : p = p' <;> simp [hx, hp] at hm
    subst hx hp
    rw [Node.match?_of_value hb] at hm
    by_cases hy : y = y' <;> simp [hy] at hm
    subst hy
    exact ⟨hs, hm.symm⟩
  · rintro ⟨hs, rfl⟩
    exact ⟨_, hs, by simp [Node.match?_of_value hb]⟩

/-- A triple with a free object binds it to what the subject is related to. -/
theorem mem_extensions_object {c : Context} {μ κ : Solution} {a : Node} {v : Variable} {p : Iri}
    {x : Term} (ha : a.value? c μ = some x) (hv : c.value? μ v = none) :
    κ ∈ extensions μ (Triple.solutions c ⟨a, .iri p, .var v⟩) ↔
      ∃ y, ⟨x, p, y⟩ ∈ c.statements ∧ κ = μ.set v y := by
  simp only [extensions_solutions, Multiset.mem_filterMap, Triple.match?, Predicate.match?,
    Node.match?_of_value ha, Option.bind_eq_bind]
  constructor
  · rintro ⟨⟨x', p', y⟩, hs, hm⟩
    by_cases hx : x = x' <;> by_cases hp : p = p' <;> simp [hx, hp] at hm
    subst hx hp
    rw [Node.match?_of_unbound hv, Option.some_inj] at hm
    exact ⟨y, hs, hm.symm⟩
  · rintro ⟨y, hs, rfl⟩
    exact ⟨_, hs, by simp [Node.match?_of_unbound hv]⟩

/-- A triple with a free subject binds it to what is related to the object. -/
theorem mem_extensions_subject {c : Context} {μ κ : Solution} {a : Node} {v : Variable} {p : Iri}
    {x : Term} (ha : a.value? c μ = some x) (hv : c.value? μ v = none) :
    κ ∈ extensions μ (Triple.solutions c ⟨.var v, .iri p, a⟩) ↔
      ∃ y, ⟨y, p, x⟩ ∈ c.statements ∧ κ = μ.set v y := by
  simp only [extensions_solutions, Multiset.mem_filterMap, Triple.match?, Predicate.match?,
    Node.match?_of_unbound hv, Option.bind_eq_bind, Option.bind_some]
  constructor
  · rintro ⟨⟨y, p', x'⟩, hs, hm⟩
    by_cases hp : p = p' <;> simp [hp] at hm
    subst hp
    rw [Node.match?_of_value (Node.value?_set ha hv y)] at hm
    by_cases hx : x = x' <;> simp [hx] at hm
    subst hx
    exact ⟨y, hs, hm.symm⟩
  · rintro ⟨y, hs, rfl⟩
    exact ⟨_, hs, by simp [Node.match?_of_value (Node.value?_set ha hv y)]⟩

/-- A triple without known nodes binds both of its ends. -/
theorem mem_extensions_free {c : Context} {μ κ : Solution} {v w : Variable} {p : Iri} (hne : w ≠ v)
    (hv : c.value? μ v = none) (hw : c.value? μ w = none) :
    κ ∈ extensions μ (Triple.solutions c ⟨.var v, .iri p, .var w⟩) ↔
      ∃ x y, ⟨x, p, y⟩ ∈ c.statements ∧ κ = (μ.set v x).set w y := by
  have hw' (x : Term) : c.value? (μ.set v x) w = none := by
    rw [c.value?_set_of_ne μ hne]
    exact hw
  simp only [extensions_solutions, Multiset.mem_filterMap, Triple.match?, Predicate.match?,
    Node.match?_of_unbound hv, Option.bind_eq_bind, Option.bind_some]
  constructor
  · rintro ⟨⟨x, p', y⟩, hs, hm⟩
    by_cases hp : p = p' <;> simp [hp] at hm
    subst hp
    rw [Node.match?_of_unbound (hw' x), Option.some_inj] at hm
    exact ⟨x, y, hs, hm.symm⟩
  · rintro ⟨x, y, hs, rfl⟩
    exact ⟨_, hs, by simp [Node.match?_of_unbound (hw' x)]⟩

/-! ## Triples with one match -/

/-- The only element with an image is the only source of one. -/
theorem filterMap_eq_singleton {α β : Type} [DecidableEq α] {S : Finset α} {f : α → Option β}
    {a : α} {b : β} (ha : a ∈ S) (hb : f a = some b) (h : ∀ a' ∈ S, a' ≠ a → f a' = none) :
    S.val.filterMap f = {b} := by
  have hrest : (S.val.erase a).filterMap f = 0 := by
    refine Multiset.eq_zero_of_forall_notMem fun b' hb' => ?_
    obtain ⟨a', ha', hf⟩ := (Multiset.mem_filterMap f _).mp hb'
    obtain ⟨hne, hmem⟩ := (S.nodup.mem_erase_iff).mp ha'
    rw [h a' hmem hne] at hf
    cases hf
  rw [← Multiset.cons_erase ha, Multiset.filterMap_cons_some _ _ _ hb, hrest]
  rfl

/-- A triple whose subject is related to one term binds a free object to it. -/
theorem extensions_object {c : Context} {μ : Solution} {a : Node} {v : Variable} {p : Iri}
    {x y : Term} (ha : a.value? c μ = some x) (hv : c.value? μ v = none)
    (hy : ∀ z, ⟨x, p, z⟩ ∈ c.statements ↔ z = y) :
    extensions μ (Triple.solutions c ⟨a, .iri p, .var v⟩) = {μ.set v y} := by
  rw [extensions_solutions]
  refine filterMap_eq_singleton ((hy y).mpr rfl) ?_ fun ⟨x', p', z⟩ hs hne => ?_
  · simp [Triple.match?, Predicate.match?, Node.match?_of_value ha, Node.match?_of_unbound hv]
  · by_cases hx : x = x' <;> by_cases hp : p = p' <;>
      simp [Triple.match?, Predicate.match?, Node.match?_of_value ha, hx, hp]
    subst hx hp
    exact absurd (by rw [(hy z).mp hs]) hne

/-- A triple whose object one term is related to binds a free subject to it. -/
theorem extensions_subject {c : Context} {μ : Solution} {v : Variable} {p : Iri} {t x : Term}
    (hv : c.value? μ v = none) (hx : ∀ z, ⟨z, p, t⟩ ∈ c.statements ↔ z = x) :
    extensions μ (Triple.solutions c ⟨.var v, .iri p, .term t⟩) = {μ.set v x} := by
  have htest {ν : Solution} : (Node.term t).value? c ν = some t := rfl
  rw [extensions_solutions]
  refine filterMap_eq_singleton ((hx x).mpr rfl) ?_ fun ⟨z, p', t'⟩ hs hne => ?_
  · simp [Triple.match?, Predicate.match?, Node.match?_of_unbound hv, Node.match?_of_value htest]
  · by_cases hp : p = p' <;>
      simp [Triple.match?, Predicate.match?, Node.match?_of_unbound hv,
        Node.match?_of_value htest, hp]
    rintro rfl
    subst hp
    exact hne (by rw [(hx z).mp hs])

end DocGraph.Sparql
