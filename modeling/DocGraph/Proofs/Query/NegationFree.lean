import DocGraph.Compile.Query
import DocGraph.Proofs.Query.FilterReading

/-!
# Conditions without negations

`eliminateNot` gives every condition a form without negations, and `negate` gives its
negation one. Both are canonical: the form is its own form
(`eliminateNot_of_isNegationFree`), negating twice gives the form, and it does not matter
whether a condition is negated or its form. They are sound for every valuation under which
the inverse of a comparison is its opposite (`isTrue_eliminateNot`, `isTrue_negate`).

A query reads its filter through the form only, so two filters of one form are compiled
alike, or refused alike (`Spec.compile_congr_filter`).
-/

namespace DocGraph

namespace Condition

mutual

/-- Whether a condition has no `not` in it. -/
def isNegationFree : Condition → Bool
  | .compare _ => true
  | .and children | .or children => allNegationFree children
  | .not _ => false

/-- Whether some conditions have no `not` in them. -/
def allNegationFree : List Condition → Bool
  | [] => true
  | c :: rest => c.isNegationFree && allNegationFree rest

end

/-! ## The form of a condition -/

mutual

theorem isNegationFree_eliminateNot : ∀ c : Condition, c.eliminateNot.isNegationFree = true
  | .compare _ => rfl
  | .and children => allNegationFree_eliminateNotAll children
  | .or children => allNegationFree_eliminateNotAll children
  | .not child => isNegationFree_negate child

theorem isNegationFree_negate : ∀ c : Condition, c.negate.isNegationFree = true
  | .compare _ => rfl
  | .and children => allNegationFree_negateAll children
  | .or children => allNegationFree_negateAll children
  | .not child => isNegationFree_eliminateNot child

theorem allNegationFree_eliminateNotAll :
    ∀ cs : List Condition, allNegationFree (eliminateNotAll cs) = true
  | [] => rfl
  | c :: rest =>
    Bool.and_eq_true_iff.mpr ⟨isNegationFree_eliminateNot c, allNegationFree_eliminateNotAll rest⟩

theorem allNegationFree_negateAll : ∀ cs : List Condition, allNegationFree (negateAll cs) = true
  | [] => rfl
  | c :: rest => Bool.and_eq_true_iff.mpr ⟨isNegationFree_negate c, allNegationFree_negateAll rest⟩

end

mutual

/-- A condition without negations is its own form. -/
theorem eliminateNot_of_isNegationFree :
    ∀ c : Condition, c.isNegationFree = true → c.eliminateNot = c
  | .compare _, _ => rfl
  | .and children, h => congrArg Condition.and (eliminateNotAll_of_allNegationFree children h)
  | .or children, h => congrArg Condition.or (eliminateNotAll_of_allNegationFree children h)
  | .not _, h => nomatch h

theorem eliminateNotAll_of_allNegationFree :
    ∀ cs : List Condition, allNegationFree cs = true → eliminateNotAll cs = cs
  | [], _ => rfl
  | c :: rest, h => by
    have h := Bool.and_eq_true_iff.mp h
    rw [eliminateNotAll, eliminateNot_of_isNegationFree c h.1,
      eliminateNotAll_of_allNegationFree rest h.2]

end

theorem eliminateNot_eliminateNot (c : Condition) : c.eliminateNot.eliminateNot = c.eliminateNot :=
  eliminateNot_of_isNegationFree _ (isNegationFree_eliminateNot c)

mutual

/-- The negation of a negation is the form of a condition. -/
theorem negate_negate : ∀ c : Condition, c.negate.negate = c.eliminateNot
  | .compare c => congrArg Condition.compare (Comparison.inverse_inverse c)
  | .and children => congrArg Condition.and (negateAll_negateAll children)
  | .or children => congrArg Condition.or (negateAll_negateAll children)
  | .not child => negate_eliminateNot child

/-- A condition is negated like its form. -/
theorem negate_eliminateNot : ∀ c : Condition, c.eliminateNot.negate = c.negate
  | .compare _ => rfl
  | .and children => congrArg Condition.or (negateAll_eliminateNotAll children)
  | .or children => congrArg Condition.and (negateAll_eliminateNotAll children)
  | .not child => negate_negate child

theorem negateAll_negateAll :
    ∀ cs : List Condition, negateAll (negateAll cs) = eliminateNotAll cs
  | [] => rfl
  | c :: rest => congrArg₂ List.cons (negate_negate c) (negateAll_negateAll rest)

theorem negateAll_eliminateNotAll :
    ∀ cs : List Condition, negateAll (eliminateNotAll cs) = negateAll cs
  | [] => rfl
  | c :: rest => congrArg₂ List.cons (negate_eliminateNot c) (negateAll_eliminateNotAll rest)

end

/-! ## The truth of a form -/

/-- Whether the inverse of every comparison holds exactly where the comparison does not. -/
def RespectsInverses (holds : Comparison → Prop) : Prop :=
  ∀ c : Comparison, holds c.inverse ↔ ¬holds c

section Truth

variable {holds : Comparison → Prop}

mutual

/-- The form of a condition is true where the condition is. -/
theorem isTrue_eliminateNot (h : RespectsInverses holds) :
    ∀ c : Condition, IsTrue holds c.eliminateNot ↔ IsTrue holds c
  | .compare _ => Iff.rfl
  | .and children => allTrue_eliminateNotAll h children
  | .or children => anyTrue_eliminateNotAll h children
  | .not child => isTrue_negate h child

/-- The negation of a condition is true where the condition is not. -/
theorem isTrue_negate (h : RespectsInverses holds) :
    ∀ c : Condition, IsTrue holds c.negate ↔ ¬IsTrue holds c
  | .compare c => h c
  | .and children => anyTrue_negateAll h children
  | .or children => allTrue_negateAll h children
  | .not child => (isTrue_eliminateNot h child).trans not_not.symm

theorem allTrue_eliminateNotAll (h : RespectsInverses holds) :
    ∀ cs : List Condition, AllTrue holds (eliminateNotAll cs) ↔ AllTrue holds cs
  | [] => Iff.rfl
  | c :: rest => and_congr (isTrue_eliminateNot h c) (allTrue_eliminateNotAll h rest)

theorem anyTrue_eliminateNotAll (h : RespectsInverses holds) :
    ∀ cs : List Condition, AnyTrue holds (eliminateNotAll cs) ↔ AnyTrue holds cs
  | [] => Iff.rfl
  | c :: rest => or_congr (isTrue_eliminateNot h c) (anyTrue_eliminateNotAll h rest)

theorem allTrue_negateAll (h : RespectsInverses holds) :
    ∀ cs : List Condition, AllTrue holds (negateAll cs) ↔ ¬AnyTrue holds cs
  | [] => not_false_iff.symm
  | c :: rest => (and_congr (isTrue_negate h c) (allTrue_negateAll h rest)).trans not_or.symm

theorem anyTrue_negateAll (h : RespectsInverses holds) :
    ∀ cs : List Condition, AnyTrue holds (negateAll cs) ↔ ¬AllTrue holds cs
  | [] => not_true.symm
  | c :: rest => (or_congr (isTrue_negate h c) (anyTrue_negateAll h rest)).trans not_and_or.symm

end

end Truth

end Condition

/-! ## Filters of one form -/

namespace Spec

theorem filterElements_congr {q q' : Spec} {f : FilterScope}
    (h : q.filter.map Condition.eliminateNot = q'.filter.map Condition.eliminateNot) :
    q.filterElements f = q'.filterElements f := by
  unfold filterElements
  cases hq : q.filter with
  | none =>
    rw [hq, Option.map_none, eq_comm, Option.map_eq_none_iff] at h
    rw [h]
  | some c =>
    rw [hq, Option.map_some, eq_comm, Option.map_eq_some_iff] at h
    obtain ⟨c', hc', h⟩ := h
    rw [hc']
    dsimp only
    rw [h]

/-- Two filters of one form are compiled to the same query, or refused with the same
error. -/
theorem compile_congr_filter (q : Spec) {c c' : Condition} (h : c.eliminateNot = c'.eliminateNot)
    (s : Schema) (options : CompileOptions) (model : String) :
    { q with filter := some c }.compile s options model =
      { q with filter := some c' }.compile s options model := by
  have hfilter (fields : Dict Selector) (f : FilterScope) :
      { q with filter := some c, fields := fields }.filterElements f =
        { q with filter := some c', fields := fields }.filterElements f :=
    filterElements_congr (congrArg some h)
  unfold compile
  refine congrArg (_ >>= ·) (funext fun _ => ?_)
  unfold normalized
  simp only [bind_assoc, pure_bind, hfilter]
  rfl

end Spec

namespace Condition

/-- Eliminating negations is sound and canonical: the form of a condition and that of its
negation have no negations and are fixed, exchange under negation, and have the truth of the
condition and its opposite. A query means its filter by the form alone. -/
theorem eliminateNot_sound_canonical (c : Condition) :
    (c.eliminateNot.isNegationFree = true ∧ c.negate.isNegationFree = true) ∧
    c.eliminateNot.eliminateNot = c.eliminateNot ∧
    (not c).eliminateNot = c.negate ∧
    c.negate.negate = c.eliminateNot ∧
    c.eliminateNot.negate = c.negate ∧
    (∀ holds : Comparison → Prop, RespectsInverses holds →
      (c.eliminateNot.IsTrue holds ↔ c.IsTrue holds) ∧
      (c.negate.IsTrue holds ↔ ¬c.IsTrue holds) ∧
      (and []).IsTrue holds ∧ ¬(or []).IsTrue holds) ∧
    ∀ c' : Condition, c.eliminateNot = c'.eliminateNot →
      ∀ (q : Spec) (s : Schema) (options : CompileOptions) (model : String),
        { q with filter := some c }.compile s options model =
          { q with filter := some c' }.compile s options model :=
  ⟨⟨c.isNegationFree_eliminateNot, c.isNegationFree_negate⟩, c.eliminateNot_eliminateNot, rfl,
    c.negate_negate, c.negate_eliminateNot,
    fun _ h => ⟨isTrue_eliminateNot h c, isTrue_negate h c, trivial, not_false⟩,
    fun _ h q => Spec.compile_congr_filter q h⟩

/-! ## A filter in two ways -/

/-- The people who are called Ann and are no older than thirty. -/
def youngAnn : Condition :=
  .and [.equals (.ofText "name") (.str "Ann"),
    .not (.comparison (.ofText "age") .gt (.num (.integer ⟨30, by decide, by decide⟩)))]

/-- The people who are not called Ann or are older than thirty. -/
def notYoungAnn : Condition :=
  .or [.not (.equals (.ofText "name") (.str "Ann")),
    .comparison (.ofText "age") .gt (.num (.integer ⟨30, by decide, by decide⟩))]

/-- What holds of a value that is larger than every operand and equal to it. -/
def holdsOfTop (c : Comparison) : Prop :=
  c.operator ∈ [.eq, .gt, .gte, .oneOf, .regex, .iregex, .strlen, .present, .all, .search]

theorem respectsInverses_holdsOfTop : RespectsInverses holdsOfTop := by
  have hinverse (op : Operator) :
      op.inverse ∈ [.eq, .gt, .gte, .oneOf, .regex, .iregex, .strlen, .present, .all, .search] ↔
        op ∉ [.eq, .gt, .gte, .oneOf, .regex, .iregex, .strlen, .present, .all, .search] := by
    cases op <;> decide
  exact fun c => hinverse c.operator

/-- The negation of one condition has the form of the other. -/
theorem eliminateNot_sound_canonical_youngAnn :
    (youngAnn.not.eliminateNot.IsTrue holdsOfTop ↔ youngAnn.not.IsTrue holdsOfTop) ∧
    youngAnn.not.eliminateNot = notYoungAnn.eliminateNot ∧
    ∀ (q : Spec) (s : Schema) (options : CompileOptions) (model : String),
      { q with filter := some youngAnn.not }.compile s options model =
        { q with filter := some notYoungAnn }.compile s options model := by
  obtain ⟨-, -, -, -, -, htruth, hcompile⟩ := eliminateNot_sound_canonical youngAnn.not
  exact ⟨(htruth holdsOfTop respectsInverses_holdsOfTop).1, rfl, hcompile notYoungAnn rfl⟩

end Condition

end DocGraph
