import DocGraph.Proofs.Query.Meaning

/-!
# Conditions over their comparisons

A condition is compiled comparison by comparison, with its negations pushed down to
these: under a negation a conjunction becomes a disjunction, and a comparison its inverse.
`Condition.fold` reads a condition in this way, for any reading of the comparisons and
the connectives. `Condition.Holds` is whether it holds, and `Condition.ways` in how many
ways it does, where a conjunction multiplies and a disjunction adds.

* `fold_eliminateNot`, `fold_negate`: eliminating the negations changes no reading, and
  the negation of a condition is read with the other polarity;
* `fold_related`: two readings are related if those of the comparisons are, and the
  connectives keep the relation, or exchange it;
* `holds_not_iff`: the negation of a condition is its complement if the inverse of every
  comparison is.
-/

namespace DocGraph

/-- A comparison, or its inverse in its place. -/
def Comparison.polar (negated : Bool) (c : Comparison) : Comparison :=
  if negated then c.inverse else c

theorem Comparison.polar_polar (a b : Bool) (c : Comparison) :
    (c.polar a).polar b = c.polar (a ^^ b) := by
  cases a <;> cases b <;> simp [polar]

/-- What the connectives of conditions are read as: the conjunction under `true`, the
disjunction under `false`. -/
structure Connectives (α : Type) where
  unit : Bool → α
  op : Bool → α → α → α

namespace Connectives

/-- Conjunctions and disjunctions of propositions. -/
def logic : Connectives Prop where
  unit conjunctive := if conjunctive then True else False
  op conjunctive p q := if conjunctive then p ∧ q else p ∨ q

/-- Products and sums of numbers. -/
def counting : Connectives Nat where
  unit conjunctive := if conjunctive then 1 else 0
  op conjunctive m n := if conjunctive then m * n else m + n

/-- Lists, one after the other. -/
def listing (α : Type) : Connectives (List α) where
  unit _ := []
  op _ as bs := as ++ bs

/-- Whether the connectives of two readings keep a relation. If they are `exchanged`, the
conjunction of one is related to the disjunction of the other. -/
structure Related {α β : Type} (K : Connectives α) (K' : Connectives β) (exchanged : Bool)
    (R : α → β → Prop) : Prop where
  unit : ∀ conjunctive, R (K.unit conjunctive) (K'.unit (conjunctive ^^ exchanged))
  op : ∀ conjunctive a b a' b', R a a' → R b b' →
    R (K.op conjunctive a b) (K'.op (conjunctive ^^ exchanged) a' b')

/-- A number is positive if a product has positive factors, or a sum a positive part. -/
theorem related_ne_zero : Related .counting .logic false fun n p => n ≠ 0 ↔ p where
  unit := by rintro (_ | _) <;> simp [counting, logic]
  op := by
    rintro (_ | _) m n p q hm hn
    · show m + n ≠ 0 ↔ p ∨ q
      rw [← hm, ← hn]
      omega
    · exact Nat.mul_ne_zero_iff.trans (and_congr hm hn)

theorem related_iff : Related .logic .logic false Iff where
  unit _ := by rw [Bool.xor_false]
  op := by
    rintro (_ | _) p q p' q' hp hq
    · exact or_congr hp hq
    · exact and_congr hp hq

/-- The laws of De Morgan. -/
theorem related_not : Related .logic .logic true fun p q => q ↔ ¬p where
  unit := by rintro (_ | _) <;> simp [logic]
  op := by
    rintro (_ | _) p q p' q' hp hq
    · exact (and_congr hp hq).trans not_or.symm
    · exact (or_congr hp hq).trans not_and_or.symm

theorem related_le : Related .counting .counting false (· ≤ ·) where
  unit _ := by rw [Bool.xor_false]
  op := by
    rintro (_ | _) m n m' n' hm hn
    · exact Nat.add_le_add hm hn
    · exact Nat.mul_le_mul hm hn

end Connectives

namespace Condition

open Connectives (Related)

variable {α β : Type} {K : Connectives α} {K' : Connectives β} {leaf : Comparison → α}
  {leaf' : Comparison → β}

mutual

/-- The reading of a condition, or of its negation, by those of its comparisons. -/
def fold (K : Connectives α) (leaf : Comparison → α) (negated : Bool) : Condition → α
  | .compare c => leaf (c.polar negated)
  | .and children => foldList K leaf negated (!negated) children
  | .or children => foldList K leaf negated negated children
  | .not child => fold K leaf (!negated) child

/-- The reading of a conjunction or a disjunction of conditions. -/
def foldList (K : Connectives α) (leaf : Comparison → α) (negated conjunctive : Bool) :
    List Condition → α
  | [] => K.unit conjunctive
  | c :: rest => K.op conjunctive (fold K leaf negated c) (foldList K leaf negated conjunctive rest)

end

/-- The comparisons that a condition, or its negation, is read by. -/
def comparisons (negated : Bool) (c : Condition) : List Comparison :=
  fold (.listing Comparison) ([·]) negated c

/-- Whether a condition, or its negation, holds by its comparisons. -/
def Holds (holds : Comparison → Prop) (negated : Bool) (c : Condition) : Prop :=
  fold .logic holds negated c

/-- In how many ways a condition, or its negation, holds, by the ways of its
comparisons. -/
def ways (weight : Comparison → Nat) (negated : Bool) (c : Condition) : Nat :=
  fold .counting weight negated c

/-! ## Eliminated negations -/

mutual

theorem fold_eliminateNot (negated : Bool) :
    ∀ c : Condition, fold K leaf negated c.eliminateNot = fold K leaf negated c
  | .compare _ => rfl
  | .and children => foldList_eliminateNot negated (!negated) children
  | .or children => foldList_eliminateNot negated negated children
  | .not child => fold_negate negated child

/-- The negation of a condition is read with the other polarity. -/
theorem fold_negate (negated : Bool) :
    ∀ c : Condition, fold K leaf negated c.negate = fold K leaf (!negated) c
  | .compare c => by
    cases negated
    · rfl
    · show leaf c.inverse.inverse = leaf c
      rw [Comparison.inverse_inverse]
  | .and children => by
    rw [negate, fold, fold, Bool.not_not]
    exact foldList_negate negated negated children
  | .or children => foldList_negate negated (!negated) children
  | .not child => by
    rw [negate, fold, Bool.not_not]
    exact fold_eliminateNot negated child

theorem foldList_eliminateNot (negated conjunctive : Bool) : ∀ cs : List Condition,
    foldList K leaf negated conjunctive (eliminateNotAll cs) =
      foldList K leaf negated conjunctive cs
  | [] => rfl
  | c :: rest => by
    rw [eliminateNotAll, foldList, foldList, fold_eliminateNot, foldList_eliminateNot]

theorem foldList_negate (negated conjunctive : Bool) : ∀ cs : List Condition,
    foldList K leaf negated conjunctive (negateAll cs) =
      foldList K leaf (!negated) conjunctive cs
  | [] => rfl
  | c :: rest => by rw [negateAll, foldList, foldList, fold_negate, foldList_negate]

end

/-! ## Related readings -/

mutual

/-- Two readings of a condition are related if those of its comparisons are. If the
connectives are exchanged, this goes for a condition and its negation. -/
theorem fold_related {exchanged : Bool} {R : α → β → Prop} (hR : Related K K' exchanged R)
    (negated : Bool) : ∀ c : Condition,
      (∀ cmp ∈ c.comparisons negated, R (leaf cmp) (leaf' (cmp.polar exchanged))) →
      R (fold K leaf negated c) (fold K' leaf' (negated ^^ exchanged) c)
  | .compare c, h => by
    rw [fold, fold, ← Comparison.polar_polar]
    exact h _ (List.mem_singleton_self _)
  | .and children, h => by
    rw [fold, fold, ← Bool.not_xor]
    exact foldList_related hR negated (!negated) children h
  | .or children, h => foldList_related hR negated negated children h
  | .not child, h => by
    rw [fold, fold, ← Bool.not_xor]
    exact fold_related hR (!negated) child h

theorem foldList_related {exchanged : Bool} {R : α → β → Prop} (hR : Related K K' exchanged R)
    (negated conjunctive : Bool) : ∀ cs : List Condition,
      (∀ cmp ∈ foldList (.listing Comparison) ([·]) negated conjunctive cs,
        R (leaf cmp) (leaf' (cmp.polar exchanged))) →
      R (foldList K leaf negated conjunctive cs)
        (foldList K' leaf' (negated ^^ exchanged) (conjunctive ^^ exchanged) cs)
  | [], _ => hR.unit conjunctive
  | c :: rest, h => by
    have h := List.forall_mem_append.mp h
    exact hR.op conjunctive _ _ _ _ (fold_related hR negated c h.1)
      (foldList_related hR negated conjunctive rest h.2)

end

variable {holds holds' : Comparison → Prop} {weight weight' : Comparison → Nat} {negated : Bool}
  {cond : Condition}

/-- A condition holds if there is a way in which it does. -/
theorem ways_ne_zero_iff : ways weight negated cond ≠ 0 ↔ Holds (weight · ≠ 0) negated cond := by
  have h : fold .counting weight negated cond ≠ 0 ↔
      fold .logic (weight · ≠ 0) (negated ^^ false) cond :=
    fold_related Connectives.related_ne_zero negated cond fun _ _ => Iff.rfl
  rwa [Bool.xor_false] at h

/-- Comparisons that hold in fewer ways make for a condition that does. -/
theorem ways_le (h : ∀ cmp ∈ cond.comparisons negated, weight cmp ≤ weight' cmp) :
    ways weight negated cond ≤ ways weight' negated cond := by
  have h := fold_related Connectives.related_le negated cond h
  rwa [Bool.xor_false] at h

/-- Meanings that agree on the comparisons of a condition give it the same meaning. -/
theorem holds_congr (h : ∀ cmp ∈ cond.comparisons negated, holds cmp ↔ holds' cmp) :
    Holds holds negated cond ↔ Holds holds' negated cond := by
  have h := fold_related Connectives.related_iff negated cond h
  rwa [Bool.xor_false] at h

/-- The negation of a condition is its complement if the inverses of its comparisons
are. -/
theorem holds_not_iff (h : ∀ cmp ∈ cond.comparisons negated, holds cmp.inverse ↔ ¬holds cmp) :
    Holds holds (!negated) cond ↔ ¬Holds holds negated cond := by
  have h := fold_related Connectives.related_not negated cond h
  rwa [Bool.xor_true] at h

end Condition

/-! ## Comparisons without full-text search -/

namespace Condition

theorem not_search_polar {c : Comparison} (h : (Condition.compare c).isSearchFree = true)
    (negated : Bool) :
    (c.polar negated).operator ≠ .search ∧ (c.polar negated).operator ≠ .notSearch := by
  obtain ⟨path, operator, operand⟩ := c
  have h := of_decide_eq_true h
  cases negated with
  | false => exact h
  | true =>
    revert h
    cases operator <;> simp [Comparison.polar, Comparison.inverse, Operator.inverse]

mutual

theorem not_search_of_mem_comparisons {c : Comparison} (negated : Bool) : ∀ cond : Condition,
    cond.isSearchFree = true → c ∈ cond.comparisons negated →
      c.operator ≠ .search ∧ c.operator ≠ .notSearch
  | .compare _, h, hc => by
    rw [List.mem_singleton.mp hc]
    exact not_search_polar h negated
  | .and children, h, hc => not_search_of_mem_list negated (!negated) children h hc
  | .or children, h, hc => not_search_of_mem_list negated negated children h hc
  | .not child, h, hc => not_search_of_mem_comparisons (!negated) child h hc

theorem not_search_of_mem_list {c : Comparison} (negated conjunctive : Bool) :
    ∀ conds : List Condition, allSearchFree conds = true →
      c ∈ foldList (.listing Comparison) ([·]) negated conjunctive conds →
        c.operator ≠ .search ∧ c.operator ≠ .notSearch
  | [], _, hc => nomatch hc
  | cond :: rest, h, hc => by
    rw [allSearchFree, Bool.and_eq_true] at h
    rcases List.mem_append.mp hc with hc | hc
    · exact not_search_of_mem_comparisons negated cond h.1 hc
    · exact not_search_of_mem_list negated conjunctive rest h.2 hc

end

end Condition

end DocGraph
