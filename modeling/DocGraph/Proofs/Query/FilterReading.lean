import DocGraph.Proofs.Outcome
import DocGraph.Query.Reader

/-!
# What a filter that is read asks for

A filter is an object whose entries must all be met. `Filter.IsMet` is whether it is, by
the comparisons that hold: `$and` asks for all of its filters, `$or` for one of them and
`$not` that its filter is not met; a path asks for one of the values of a list, for all
that the operators of an object ask, or to be equal to any other value.

The reader leaves a filter without entries out of the list that a connective joins. This
changes no conjunction, but a filter without entries is met by every document, and so is a
disjunction that offers it: what is read is the filter without these (`Filter.trimmed`).
-/

namespace DocGraph

open Json (Value)

variable {holds : Comparison → Prop}

namespace Condition

mutual

/-- Whether a condition is true, by the comparisons that hold. -/
def IsTrue (holds : Comparison → Prop) : Condition → Prop
  | .compare c => holds c
  | .and children => AllTrue holds children
  | .or children => AnyTrue holds children
  | .not child => ¬IsTrue holds child

/-- Whether all of some conditions are true. -/
def AllTrue (holds : Comparison → Prop) : List Condition → Prop
  | [] => True
  | c :: rest => IsTrue holds c ∧ AllTrue holds rest

/-- Whether one of some conditions is true. -/
def AnyTrue (holds : Comparison → Prop) : List Condition → Prop
  | [] => False
  | c :: rest => IsTrue holds c ∨ AnyTrue holds rest

end

theorem allTrue_iff {cs : List Condition} : AllTrue holds cs ↔ ∀ c ∈ cs, IsTrue holds c := by
  induction cs with
  | nil => simp [AllTrue]
  | cons c rest ih => rw [AllTrue, ih, List.forall_mem_cons]

theorem anyTrue_iff {cs : List Condition} : AnyTrue holds cs ↔ ∃ c ∈ cs, IsTrue holds c := by
  induction cs with
  | nil => simp [AnyTrue]
  | cons c rest ih => rw [AnyTrue, ih, List.exists_mem_cons_iff]

theorem allTrue_append {cs cs' : List Condition} :
    AllTrue holds (cs ++ cs') ↔ AllTrue holds cs ∧ AllTrue holds cs' := by
  simp only [allTrue_iff, List.forall_mem_append]

theorem anyTrue_append {cs cs' : List Condition} :
    AnyTrue holds (cs ++ cs') ↔ AnyTrue holds cs ∨ AnyTrue holds cs' := by
  simp only [anyTrue_iff, List.mem_append, or_and_right, exists_or]

end Condition

namespace Filter

open Spec (isDollarKey)

/-- Whether what is asked of the values at a path is met. -/
def PathIsMet (holds : Comparison → Prop) (path : String) (v : Value) : Prop :=
  let asks (operator : Operator) (operand : Value) := holds (.of (.ofText path) operator operand)
  match v with
  | .arr _ => asks .oneOf v
  | .obj members =>
    if members.any fun (key, _) => isDollarKey key then
      ∀ m ∈ members, ∃ operator : Operator, operator.key = m.1 ∧ asks operator m.2
    else asks .eq v
  | _ => asks .eq v

mutual

/-- Whether a filter is met: an object, all of whose entries are. -/
def IsMet (holds : Comparison → Prop) : Value → Prop
  | .obj entries => EntriesMet holds entries
  | _ => False

/-- Whether all entries of a filter are met. -/
def EntriesMet (holds : Comparison → Prop) : List (String × Value) → Prop
  | [] => True
  | (key, v) :: rest =>
    (if key = "$and" then AllMet holds v
      else if key = "$or" then AnyMet holds v
      else if key = "$not" then ¬IsMet holds v
      else PathIsMet holds key v) ∧ EntriesMet holds rest

/-- Whether all of a list of filters are met. -/
def AllMet (holds : Comparison → Prop) : Value → Prop
  | .arr filters => AllFiltersMet holds filters
  | _ => False

/-- Whether one of a list of filters is met. -/
def AnyMet (holds : Comparison → Prop) : Value → Prop
  | .arr filters => AnyFilterMet holds filters
  | _ => False

/-- Whether all of some filters are met. -/
def AllFiltersMet (holds : Comparison → Prop) : List Value → Prop
  | [] => True
  | v :: rest => IsMet holds v ∧ AllFiltersMet holds rest

/-- Whether one of some filters is met. -/
def AnyFilterMet (holds : Comparison → Prop) : List Value → Prop
  | [] => False
  | v :: rest => IsMet holds v ∨ AnyFilterMet holds rest

end

mutual

/-- The filter without the filters without entries that its disjunctions offer. -/
def trimmed : Value → Value
  | .obj entries => .obj (trimmedEntries entries)
  | v => v

/-- The entries of a filter, trimmed. -/
def trimmedEntries : List (String × Value) → List (String × Value)
  | [] => []
  | (key, v) :: rest =>
    (key,
      if key = "$and" then trimmedAll v
      else if key = "$or" then trimmedAny v
      else if key = "$not" then trimmed v
      else v) :: trimmedEntries rest

/-- The filters of a conjunction, trimmed. -/
def trimmedAll : Value → Value
  | .arr filters => .arr (trimmedFilters filters)
  | v => v

/-- The filters of a disjunction that have entries, trimmed. -/
def trimmedAny : Value → Value
  | .arr filters => .arr (trimmedOffers filters)
  | v => v

/-- Each of some filters, trimmed. -/
def trimmedFilters : List Value → List Value
  | [] => []
  | v :: rest => trimmed v :: trimmedFilters rest

/-- Those of some filters that have entries, trimmed. -/
def trimmedOffers : List Value → List Value
  | [] => []
  | .obj [] :: rest => trimmedOffers rest
  | v :: rest => trimmed v :: trimmedOffers rest

end

theorem trimmedOffers_cons {v : Value} (h : v ≠ .obj []) (rest : List Value) :
    trimmedOffers (v :: rest) = trimmed v :: trimmedOffers rest := by
  rw [trimmedOffers]
  exact h

/-! ## Reading the filter of a query -/

open Condition
open Spec (conjunction? readChildren readComparisons readEntries readFilter readFilters)

variable {v : Value} {key : String} {cs : List Condition} {c : Option Condition}

/-- What one entry of a filter is read as. -/
def readEntry (key : String) (v : Value) : Outcome (List Condition) :=
  if key = "$and" then (readChildren key v).map fun cs => [.and cs]
  else if key = "$or" then (readChildren key v).map fun cs => [.or cs]
  else if key = "$not" then (readFilter v).map fun c => [.not (c.getD (.and []))]
  else readComparisons key v

theorem readEntries_cons (key : String) (v : Value) (rest : List (String × Value)) :
    readEntries ((key, v) :: rest) = do
      let here ← readEntry key v
      let others ← readEntries rest
      return here ++ others := by
  rw [readEntries, readEntry]
  split
  · rfl
  split
  · rfl
  split <;> rfl

/-- The condition that all of a list hold is true if they are; no condition is true. -/
theorem isTrue_conjunction? (cs : List Condition) :
    (conjunction? cs).elim True (IsTrue holds) ↔ AllTrue holds cs :=
  match cs with
  | [] => Iff.rfl
  | [_] => (and_iff_left trivial).symm
  | _ :: _ :: _ => Iff.rfl

theorem conjunction?_eq_none : conjunction? cs = none ↔ cs = [] := by
  match cs with
  | [] | [_] | _ :: _ :: _ => simp [conjunction?]

theorem ofKey_eq_ok {operator : Operator} :
    Operator.ofKey key = .ok operator ↔ operator.key = key := by
  constructor
  · intro h
    unfold Operator.ofKey at h
    split at h
    · rename_i op hop
      rw [← Except.ok.inj h]
      simpa using List.find?_some hop
    · cases h
  · rintro rfl
    exact Operator.ofKey_key operator

/-! ### The comparisons of one path -/

/-- The conditions that the operators of an object are read as, one for each. -/
theorem allTrue_mapM_ofKey {path : Path} {members : List (String × Value)}
    (h : (members.mapM fun (key, operand) => do
      return Condition.comparison path (← Operator.ofKey key) operand) = .ok cs) :
    AllTrue holds cs ↔
      ∀ m ∈ members, ∃ operator : Operator, operator.key = m.1 ∧
        holds (.of path operator m.2) := by
  replace h := Outcome.mapM_eq_ok.mp h
  induction h with
  | nil => simp [AllTrue]
  | @cons m c members cs hc hcs ih =>
    obtain ⟨operator, hoperator, hc⟩ := Outcome.bind_eq_ok.mp hc
    obtain rfl := Except.ok.inj hc
    refine Iff.trans (and_congr ?_ ih) List.forall_mem_cons.symm
    constructor
    · intro hholds
      exact ⟨operator, ofKey_eq_ok.mp hoperator, hholds⟩
    · rintro ⟨other, hother, hholds⟩
      obtain rfl := Except.ok.inj ((ofKey_eq_ok.mpr hother).symm.trans hoperator)
      exact hholds

theorem allTrue_readComparisons {path : String} (h : readComparisons path v = .ok cs) :
    AllTrue holds cs ↔ PathIsMet holds path v := by
  cases v with
  | obj members =>
    simp only [readComparisons] at h
    simp only [PathIsMet]
    split at h
    · rw [if_pos ‹_›]
      exact allTrue_mapM_ofKey h
    · rw [if_neg ‹_›, ← Except.ok.inj h]
      exact and_iff_left trivial
  | _ =>
    obtain rfl := Except.ok.inj h
    exact and_iff_left trivial

theorem readComparisons_ne_nil {path : String} : readComparisons path v ≠ .ok [] := by
  cases v with
  | obj members =>
    intro h
    simp only [readComparisons] at h
    split at h
    · rename_i hany
      cases Outcome.mapM_eq_ok.mp h
      simp at hany
    · simp at h
  | _ => simp [readComparisons]

/-! ### Filters without entries -/

/-- Every entry of a filter asks for something. -/
theorem readEntry_ne_nil : readEntry key v ≠ .ok [] := by
  intro h
  unfold readEntry at h
  split at h
  · simp [Outcome.map_eq_ok] at h
  split at h
  · simp [Outcome.map_eq_ok] at h
  split at h
  · simp [Outcome.map_eq_ok] at h
  · exact readComparisons_ne_nil h

/-- No condition is read of a filter without entries only. -/
theorem readFilter_eq_none (h : readFilter v = .ok none) : v = .obj [] := by
  cases v with
  | obj entries =>
    obtain ⟨cs, hcs, h⟩ := Outcome.bind_eq_ok.mp h
    obtain rfl := conjunction?_eq_none.mp (Except.ok.inj h)
    cases entries with
    | nil => rfl
    | cons e rest =>
      rw [readEntries_cons] at hcs
      obtain ⟨here, hhere, hcs⟩ := Outcome.bind_eq_ok.mp hcs
      obtain ⟨others, -, hcs⟩ := Outcome.bind_eq_ok.mp hcs
      obtain ⟨rfl, -⟩ := List.append_eq_nil_iff.mp (Except.ok.inj hcs)
      exact absurd hhere readEntry_ne_nil
  | _ => cases h

/-! ### Whole filters -/

mutual

theorem isTrue_readFilter : ∀ {v : Value} {c : Option Condition}, readFilter v = .ok c →
    (c.elim True (IsTrue holds) ↔ IsMet holds (trimmed v))
  | .obj entries, c, h => by
    obtain ⟨cs, hcs, h⟩ := Outcome.bind_eq_ok.mp h
    obtain rfl := Except.ok.inj h
    exact (isTrue_conjunction? cs).trans (allTrue_readEntries hcs)
  | .null, _, h | .bool _, _, h | .num _, _, h | .str _, _, h | .arr _, _, h => by cases h

theorem allTrue_readEntries : ∀ {entries : List (String × Value)} {cs : List Condition},
    readEntries entries = .ok cs → (AllTrue holds cs ↔ EntriesMet holds (trimmedEntries entries))
  | [], _, h => by
    obtain rfl := Except.ok.inj h
    exact Iff.rfl
  | (key, v) :: rest, cs, h => by
    rw [readEntries_cons] at h
    obtain ⟨here, hhere, h⟩ := Outcome.bind_eq_ok.mp h
    obtain ⟨others, hothers, h⟩ := Outcome.bind_eq_ok.mp h
    obtain rfl := Except.ok.inj h
    rw [allTrue_append, trimmedEntries, EntriesMet]
    refine and_congr ?_ (allTrue_readEntries hothers)
    unfold readEntry at hhere
    split at hhere
    · subst key
      obtain ⟨cs, hcs, rfl⟩ := Outcome.map_eq_ok.mp hhere
      exact (and_iff_left trivial).trans (allTrue_readChildren hcs)
    split at hhere
    · subst key
      obtain ⟨cs, hcs, rfl⟩ := Outcome.map_eq_ok.mp hhere
      exact (and_iff_left trivial).trans (anyTrue_readChildren hcs)
    split at hhere
    · subst key
      obtain ⟨c, hc, rfl⟩ := Outcome.map_eq_ok.mp hhere
      refine (and_iff_left trivial).trans (not_congr (Iff.trans ?_ (isTrue_readFilter hc)))
      cases c <;> exact Iff.rfl
    · simp only [*, ↓reduceIte]
      exact allTrue_readComparisons hhere

theorem allTrue_readChildren : ∀ {key : String} {v : Value} {cs : List Condition},
    readChildren key v = .ok cs →
    (AllTrue holds cs ↔ AllMet holds (trimmedAll v))
  | _, .arr filters, _, h => allTrue_readFilters h
  | _, .null, _, h | _, .bool _, _, h | _, .num _, _, h | _, .str _, _, h | _, .obj _, _, h => by
    cases h

theorem anyTrue_readChildren : ∀ {key : String} {v : Value} {cs : List Condition},
    readChildren key v = .ok cs →
    (AnyTrue holds cs ↔ AnyMet holds (trimmedAny v))
  | _, .arr filters, _, h => anyTrue_readFilters h
  | _, .null, _, h | _, .bool _, _, h | _, .num _, _, h | _, .str _, _, h | _, .obj _, _, h => by
    cases h

theorem allTrue_readFilters : ∀ {filters : List Value} {cs : List Condition},
    readFilters filters = .ok cs →
    (AllTrue holds cs ↔ AllFiltersMet holds (trimmedFilters filters))
  | [], _, h => by
    obtain rfl := Except.ok.inj h
    exact Iff.rfl
  | v :: rest, cs, h => by
    obtain ⟨c, hc, h⟩ := Outcome.bind_eq_ok.mp h
    obtain ⟨others, hothers, h⟩ := Outcome.bind_eq_ok.mp h
    obtain rfl := Except.ok.inj h
    rw [allTrue_append, trimmedFilters, AllFiltersMet]
    refine and_congr (Iff.trans ?_ (isTrue_readFilter hc)) (allTrue_readFilters hothers)
    cases c <;> simp [AllTrue]

theorem anyTrue_readFilters : ∀ {filters : List Value} {cs : List Condition},
    readFilters filters = .ok cs →
    (AnyTrue holds cs ↔ AnyFilterMet holds (trimmedOffers filters))
  | [], _, h => by
    obtain rfl := Except.ok.inj h
    exact Iff.rfl
  | v :: rest, cs, h => by
    obtain ⟨c, hc, h⟩ := Outcome.bind_eq_ok.mp h
    obtain ⟨others, hothers, h⟩ := Outcome.bind_eq_ok.mp h
    obtain rfl := Except.ok.inj h
    rw [anyTrue_append, anyTrue_readFilters hothers]
    match c, hc with
    | none, hc =>
      obtain rfl := readFilter_eq_none hc
      exact or_iff_right not_false
    | some c, hc =>
      have hv : v ≠ .obj [] := by
        rintro rfl
        cases hc
      rw [trimmedOffers_cons hv, AnyFilterMet]
      exact or_congr_left ((or_iff_left not_false).trans (isTrue_readFilter hc))

end

/-- The condition that is read of a filter, at any depth of its connectives, is true just
when the filter without the empty offers of its disjunctions is met. It is true just when
the filter itself is met if none of its disjunctions offers a filter without entries. No
condition counts as true. -/
theorem isTrue_iff_isMet (h : readFilter v = .ok c) (holds : Comparison → Prop) :
    (c.elim True (IsTrue holds) ↔ IsMet holds (trimmed v)) ∧
      (trimmed v = v → (c.elim True (IsTrue holds) ↔ IsMet holds v)) := by
  have hread : c.elim True (IsTrue holds) ↔ IsMet holds (trimmed v) := isTrue_readFilter h
  refine ⟨hread, fun htrimmed => ?_⟩
  rw [htrimmed] at hread
  exact hread

/-- Documents without a title or with one of two, except for those with two tags. -/
def ofTitles : Value :=
  .obj [("$not", .obj [("tags", .obj [("$all", .arr [.str "a", .str "b"])])]),
    ("$or", .arr [.obj [("title", .arr [.str "x", .str "y"])],
      .obj [("title", .obj [("$exists", .bool false)])]])]

theorem isTrue_iff_isMet_ofTitles :
    trimmed ofTitles = ofTitles ∧
      ∀ holds, (IsTrue holds (.and
          [.not (.comparison (.ofText "tags") .all (.arr [.str "a", .str "b"])),
            .or [.comparison (.ofText "title") .oneOf (.arr [.str "x", .str "y"]),
              .comparison (.ofText "title") .absent (.bool true)]]) ↔
        IsMet holds ofTitles) :=
  ⟨rfl, fun holds => (isTrue_iff_isMet (v := ofTitles) rfl holds).2 rfl⟩

/-- A filter without entries asks nothing, but a disjunction that offers it is read as
if it did not. -/
theorem not_isTrue_iff_isMet :
    ∃ c, readFilter (.obj [("$or", .arr [.obj [], .obj [("name", .str "alice")]])]) = .ok c ∧
      ¬c.elim True (IsTrue fun _ => False) ∧
      IsMet (fun _ => False)
        (.obj [("$or", .arr [.obj [], .obj [("name", .str "alice")]])]) := by
  refine ⟨_, rfl, ?_, ?_⟩
  · show ¬((False ∨ False))
    simp
  · exact ⟨.inl trivial, trivial⟩

end Filter

end DocGraph
