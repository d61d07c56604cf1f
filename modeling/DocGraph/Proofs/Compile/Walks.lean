import DocGraph.Proofs.Compile.Chains
import DocGraph.Proofs.Query.Valuation

/-!
# Walks along paths

An equality that is inlined, and `$all`, match a document once for each walk along their
hops, not just once (`waysTo`, `waysToAll`). Every other comparison is a test. So a
comparison holds in `FilterScope.weight` ways for a document: in none exactly if the
document does not answer it (`weight_ne_zero_iff`), and in one at most if it is direct
(`weight_le_one`).
-/

namespace DocGraph

open Rdf (Graph Literal Term)
open Sparql (Store)

/-- The terms that a graph relates. -/
def Rdf.Graph.terms (g : Graph) : Finset Term :=
  g.image (·.subject) ∪ g.image (·.object)

open scoped Classical in
/-- The terms that a step leads to. -/
noncomputable def PathStep.targets (s : Schema) (g : Graph) (step : PathStep) (x : Term) :
    Finset Term :=
  (insert x g.terms).filter (step.Leads s g x)

/-- The ends of the walks along some steps, each as often as there are walks to it. -/
noncomputable def walks (s : Schema) (g : Graph) : List PathStep → Term → Multiset Term
  | [], x => {x}
  | step :: rest, x => (step.targets s g x).val.bind (walks s g rest)

open scoped Classical in
/-- The number of walks along the hops of a path to a term. -/
noncomputable def waysTo (s : Schema) (g : Graph) (steps : List PathStep) (x t : Term) : Nat :=
  (walks s g (withoutIdentity steps) x).count t

open scoped Classical in
/-- The number of walks along the hops of a path but the last to an entity that this leads
from to all of some values. -/
noncomputable def waysToAll (s : Schema) (g : Graph) (steps : List PathStep) (x : Term)
    (values : List Term) : Nat :=
  (walks s g (withoutIdentity steps).dropLast x).countP fun y =>
    ∀ v ∈ values, Reaches s g (withoutIdentity steps).getLast?.toList y v

variable {s : Schema} {g : Graph} {step : PathStep} {steps : List PathStep} {x y z t : Term}
  {values : List Term}

theorem PathStep.mem_targets : y ∈ step.targets s g x ↔ step.Leads s g x y := by
  classical
  rw [targets, Finset.mem_filter, and_iff_right_iff_imp]
  intro h
  have hsubject {st : Rdf.Statement} (hst : st ∈ g) : st.subject ∈ g.terms :=
    Finset.mem_union_left _ (Finset.mem_image_of_mem _ hst)
  have hobject {st : Rdf.Statement} (hst : st ∈ g) : st.object ∈ g.terms :=
    Finset.mem_union_right _ (Finset.mem_image_of_mem _ hst)
  rw [Leads] at h
  split at h
  · exact Finset.mem_insert.mpr (.inl h.symm)
  · exact Finset.mem_insert_of_mem (hobject h)
  · split at h
    · exact Finset.mem_insert_of_mem (hobject h)
    · exact Finset.mem_insert_of_mem (hsubject h.1)

/-- There is a walk to a term exactly if the steps reach it. -/
theorem mem_walks : z ∈ walks s g steps x ↔ Reaches s g steps x z := by
  induction steps generalizing x with
  | nil => exact Multiset.mem_singleton.trans eq_comm
  | cons step rest ih =>
    rw [walks, Multiset.mem_bind]
    simp only [Finset.mem_val, PathStep.mem_targets, ih, Reaches]

theorem walks_singleton : walks s g [step] x = (step.targets s g x).val :=
  (Multiset.bind_singleton _ id).trans (Multiset.map_id _)

/-- One step leads to every term in one way. -/
theorem nodup_walks (h : steps.length ≤ 1) : (walks s g steps x).Nodup := by
  match steps, h with
  | [], _ => exact Multiset.nodup_singleton x
  | [step], _ =>
    rw [walks_singleton]
    exact (step.targets s g x).nodup

theorem waysTo_ne_zero_iff : waysTo s g steps x t ≠ 0 ↔ Reaches s g steps x t := by
  rw [waysTo, Multiset.count_ne_zero, mem_walks, reaches_withoutIdentity]

theorem waysTo_le_one (h : (withoutIdentity steps).length ≤ 1) : waysTo s g steps x t ≤ 1 := by
  classical
  exact Multiset.nodup_iff_count_le_one.mp (nodup_walks h) t

theorem waysToAll_ne_zero_iff :
    waysToAll s g steps x values ≠ 0 ↔ ReachesAll s g steps x values := by
  classical
  rw [waysToAll, ← Nat.pos_iff_ne_zero, Multiset.countP_pos, ReachesAll]
  simp only [mem_walks]
  split
  · next hnone =>
    rw [List.getLast?_eq_none_iff.mp hnone]
    simp only [List.dropLast_nil, Reaches, exists_eq_left', List.getLast?_nil, Option.toList_none]
  · next last hlast =>
    simp only [hlast, Option.toList_some, reaches_singleton]

theorem waysToAll_le_one (h : (withoutIdentity steps).length ≤ 1) :
    waysToAll s g steps x values ≤ 1 := by
  classical
  have hnil : (withoutIdentity steps).dropLast = [] :=
    List.eq_nil_of_length_eq_zero (by rw [List.length_dropLast]; omega)
  rw [waysToAll, hnil, ← Multiset.card_singleton x]
  exact Multiset.countP_le_card _ _

/-! ## Comparisons -/

namespace FilterScope

variable (f : FilterScope) (store : Store) (g : Graph)

/-- Whether a full-text search finds a value that a document has at a path. -/
def Searches (c : Comparison) (x : Term) : Prop :=
  ∃ r text z, f.schema.resolve f.model c.path = .ok r ∧ c.operand = .str text ∧
    Reaches f.schema g r.steps x z ∧ ⟨z, f.fullText.search, .literal (.plain text)⟩ ∈ g ∧
      ⟨z, f.fullText.matchAllTerms, .literal (.plain "true")⟩ ∈ g

/-- Whether a document is one that a comparison asks for. -/
def Answers (exact : Comparison → Bool) (c : Comparison) (x : Term) : Prop :=
  match c.operator with
  | .search => f.Searches g c x
  | .notSearch => ¬f.Searches g c x
  | _ => f.Satisfies store g exact c x

open scoped Classical in
/-- In how many ways a document is one that a comparison asks for: by every walk to the
constant of an equality that is inlined, by every walk to an entity that has all values of
`$all`, and else in one way. -/
noncomputable def weight (x : Term) (c : Comparison) : Nat :=
  if f.isInlined c then
    match f.schema.resolve f.model c.path, f.constant c.path c.operand with
    | .ok r, .ok t => waysTo f.schema g r.steps x t
    | _, _ => 0
  else if c.operator = .all then
    match f.schema.resolve f.model c.path, f.constants c.path c.operand with
    | .ok r, .ok values => waysToAll f.schema g r.steps x values
    | _, _ => 0
  else if f.Answers store g f.isInlined c x then 1 else 0

/-- Whether a comparison is one that every document answers in one way at most: a test,
or a chain of one hop. -/
def IsDirect (c : Comparison) : Prop :=
  f.isInlined c = true ∨ c.operator = .all → ∀ r, f.schema.resolve f.model c.path = .ok r →
    (withoutIdentity r.steps).length ≤ 1

variable {f store g} {c : Comparison}

theorem operator_of_isInlined (h : f.isInlined c = true) : c.operator = .eq :=
  (of_decide_eq_true h).1

theorem isInlined_of_ne (h : c.operator ≠ .eq) : f.isInlined c = false :=
  Bool.eq_false_iff.mpr fun hc => h (operator_of_isInlined hc)

theorem answers_of_eq {exact : Comparison → Bool} (h : c.operator = .eq) :
    f.Answers store g exact c x ↔ f.Finds store g (exact c) c .eq x := by
  simp only [Answers, Satisfies, h, Operator.polarity]

theorem answers_of_isInlined (h : f.isInlined c = true) :
    f.Answers store g f.isInlined c x ↔ ∃ r t, f.schema.resolve f.model c.path = .ok r ∧
      f.constant c.path c.operand = .ok t ∧ Reaches f.schema g r.steps x t := by
  rw [answers_of_eq (operator_of_isInlined h)]
  simp only [Finds, h, Passes, if_true, reduceCtorEq, if_false]
  refine exists_congr fun r => ?_
  constructor
  · rintro ⟨hr, v, hv, ht⟩
    exact ⟨v, hr, ht, hv⟩
  · rintro ⟨v, hr, ht, hv⟩
    exact ⟨hr, v, hv, ht⟩

theorem answers_of_all {exact : Comparison → Bool} (h : c.operator = .all) :
    f.Answers store g exact c x ↔ ∃ r values, f.schema.resolve f.model c.path = .ok r ∧
      f.constants c.path c.operand = .ok values ∧ ReachesAll f.schema g r.steps x values := by
  simp only [Answers, Satisfies, h, Operator.polarity, Finds, if_true]
  refine exists_congr fun r => ?_
  rw [← exists_and_left]

/-- A document is one that a comparison asks for exactly if it is one in some way. -/
theorem weight_ne_zero_iff : f.weight store g x c ≠ 0 ↔ f.Answers store g f.isInlined c x := by
  unfold weight
  by_cases hinlined : f.isInlined c = true
  · rw [if_pos hinlined, answers_of_isInlined hinlined]
    cases f.schema.resolve f.model c.path <;> cases f.constant c.path c.operand <;>
      simp [waysTo_ne_zero_iff]
  rw [if_neg hinlined]
  by_cases hall : c.operator = .all
  · rw [if_pos hall, answers_of_all hall]
    cases f.schema.resolve f.model c.path <;> cases f.constants c.path c.operand <;>
      simp [waysToAll_ne_zero_iff]
  rw [if_neg hall]
  split <;> simpa

/-- A condition has a way for a document exactly if it holds for it. -/
theorem ways_weight_ne_zero_iff {cond : Condition} {negated : Bool} :
    cond.ways (f.weight store g x) negated ≠ 0 ↔
      cond.Holds (f.Answers store g f.isInlined · x) negated :=
  Condition.ways_ne_zero_iff.trans (Condition.holds_congr fun _ _ => weight_ne_zero_iff)

theorem weight_le_one (h : f.IsDirect c) : f.weight store g x c ≤ 1 := by
  unfold weight
  split
  · next hinlined =>
    split
    · next r t hr _ => exact waysTo_le_one (h (.inl hinlined) r hr)
    · exact Nat.zero_le 1
  · split
    · next hall =>
      split
      · next r values hr _ => exact waysToAll_le_one (h (.inr hall) r hr)
      · exact Nat.zero_le 1
    · split
      · exact Nat.le_refl 1
      · exact Nat.zero_le 1

end FilterScope

end DocGraph
