import DocGraph.Proofs.Codec.Encode
import DocGraph.Update
import Mathlib.Tactic.MkIffOfInductiveProp

/-!
# The statements about a document

Which statements a document has (`HasStatement`): one for its class, and one for
every value of a property that its model stores itself. They are the ones that
its updates store (`mem_statements`).
-/

namespace DocGraph

open Json (Value)
open Rdf (Iri Term rdfType)

namespace Document

/-- Whether a property that is given `v` has the value `w`: that is `v` itself, or an
item of it. A null is no value, and only an array property has items. -/
inductive IsValueOf (p : Property) : Value → Value → Prop where
  | single {v} (hsingle : ∀ items, v ≠ .arr items) (hnull : v ≠ .null) : IsValueOf p v v
  | item {items w} (harray : p.isArray = true) (hw : w ∈ items) (hnull : w ≠ .null) :
    IsValueOf p (.arr items) w

/-- Whether the value of a key states an object of a predicate. -/
structure States (s : Schema) (model key : String) (v : Value) (predicate : Iri) (object : Term) :
    Prop where
  intro ::
  not_id : key ≠ idKey
  not_type : key ≠ typeKey
  exists_property : ∃ p, s.property model key = .ok p ∧ p.isInverse = false ∧
    p.predicate = predicate ∧
    ∃ w, IsValueOf p v w ∧ s.encode model (.ofText key) w = .ok object

/-- Whether a document has a statement: that of its class, or one that a key
states. -/
@[mk_iff]
inductive HasStatement (s : Schema) (model : String) (d : Document) : Iri → Term → Prop where
  | type {c} (hc : s.classUri model = .ok c) : HasStatement s model d rdfType (.iri c)
  | value {key v predicate object} (hmem : (key, v) ∈ d)
      (hstates : States s model key v predicate object) : HasStatement s model d predicate object

variable {s : Schema} {model key : String} {p : Property} {v w : Value} {values : List Value}
  {predicate : Iri} {object : Term} {statements : List (Iri × Term)}

/-! ## The values of a property -/

theorem isNull_eq_false_iff : v.isNull = false ↔ v ≠ .null := by
  cases v <;> simp [Value.isNull]

theorem valuesOf_arr {items : List Value} (h : valuesOf key p (.arr items) = .ok values) :
    p.isArray = true ∧ values = items.filter (!·.isNull) := by
  rw [valuesOf] at h
  split at h
  · next harray => exact ⟨harray, (Except.ok.inj h).symm⟩
  · cases h

theorem valuesOf_of_ne_arr (hsingle : ∀ items, v ≠ .arr items)
    (h : valuesOf key p v = .ok values) : values = if v.isNull then [] else [v] := by
  unfold valuesOf at h
  split at h
  · exact absurd rfl (hsingle _)
  · exact (Except.ok.inj h).symm

/-- A property without an array has its value, unless that is null. -/
theorem valuesOf_single (h : valuesOf key p v = .ok values) (hp : p.isArray = false)
    (hv : v.isNull = false) : values = [v] := by
  rw [valuesOf_of_ne_arr ?_ h, hv, if_neg Bool.false_ne_true]
  rintro items rfl
  rw [(valuesOf_arr h).1] at hp
  cases hp

theorem mem_valuesOf (h : valuesOf key p v = .ok values) : w ∈ values ↔ IsValueOf p v w := by
  by_cases harr : ∃ items, v = .arr items
  · obtain ⟨items, rfl⟩ := harr
    obtain ⟨harray, rfl⟩ := valuesOf_arr h
    rw [List.mem_filter, Bool.not_eq_true', isNull_eq_false_iff]
    constructor
    · rintro ⟨hw, hnull⟩
      exact .item harray hw hnull
    · rintro (⟨hsingle, -⟩ | ⟨-, hw, hnull⟩)
      · exact absurd rfl (hsingle items)
      · exact ⟨hw, hnull⟩
  · have hsingle : ∀ items, v ≠ .arr items := fun items he => harr ⟨items, he⟩
    rw [valuesOf_of_ne_arr hsingle h]
    constructor
    · intro hw
      split at hw
      · cases hw
      · next hnull =>
        rw [List.mem_singleton.mp hw]
        exact .single hsingle (isNull_eq_false_iff.mp (Bool.not_eq_true _ ▸ hnull))
    · rintro (⟨-, hnull⟩ | _)
      · rw [isNull_eq_false_iff.mpr hnull]
        exact List.mem_singleton_self _
      · exact absurd rfl (hsingle _)

/-! ## The statements of a key -/

/-- The statements of one key, if it is that of a stored property. -/
theorem statementsOf_eq_ok (hid : key ≠ idKey) (htype : key ≠ typeKey)
    (hp : s.property model key = .ok p) (hi : p.isInverse = false) :
    statementsOf s model key v = .ok statements ↔
      ∃ values objects, valuesOf key p v = .ok values ∧
        List.Forall₂ (fun w o => s.encode model (.ofText key) w = .ok o) values objects ∧
        statements = objects.map (p.predicate, ·) := by
  simp only [statementsOf, hid, htype, or_self, if_false, hp, Outcome.ok_bind, hi,
    Bool.false_eq_true, Outcome.bind_eq_ok, Outcome.mapM_eq_ok, Outcome.pure_eq, Except.ok.injEq]
  constructor
  · rintro ⟨values, hv, h⟩
    refine ⟨values, statements.map Prod.snd, hv, ?_, ?_⟩
    · rw [List.forall₂_map_right_iff]
      exact h.imp fun w st ⟨o, ho, hst⟩ => hst ▸ ho
    · clear hv
      induction h with
      | nil => rfl
      | cons h _ ih =>
        obtain ⟨o, -, rfl⟩ := h
        simpa using ih
  · rintro ⟨values, objects, hv, h, rfl⟩
    refine ⟨values, hv, ?_⟩
    rw [List.forall₂_map_right_iff]
    exact h.imp fun w o ho => ⟨o, ho, rfl⟩

theorem mem_statementsOf (h : statementsOf s model key v = .ok statements) :
    (predicate, object) ∈ statements ↔ States s model key v predicate object := by
  by_cases hkey : key = idKey ∨ key = typeKey
  · have hnil : statements = [] := by
      simp only [statementsOf, hkey, if_true, Outcome.pure_eq, Except.ok.injEq] at h
      exact h.symm
    rw [hnil]
    exact ⟨fun hm => absurd hm List.not_mem_nil, fun hs => absurd hkey (by simp [hs.1, hs.2])⟩
  · obtain ⟨hid, htype⟩ := not_or.mp hkey
    have hprop := h
    rw [statementsOf, if_neg hkey] at hprop
    obtain ⟨p, hp, hrest⟩ := Outcome.bind_eq_ok.mp hprop
    cases hi : p.isInverse with
    | true =>
      simp only [hi, if_true, Outcome.pure_eq, Except.ok.injEq] at hrest
      rw [← hrest]
      refine ⟨fun hm => absurd hm List.not_mem_nil, fun hs => ?_⟩
      obtain ⟨p', hp', hi', -⟩ := hs.exists_property
      rw [hp, Except.ok.injEq] at hp'
      rw [← hp', hi] at hi'
      cases hi'
    | false =>
      obtain ⟨values, objects, hv, henc, rfl⟩ := (statementsOf_eq_ok hid htype hp hi).mp h
      simp only [List.mem_map, Prod.mk.injEq]
      constructor
      · rintro ⟨o, ho, rfl, rfl⟩
        obtain ⟨w, hw, hwo⟩ := exists_left_of_mem henc ho
        exact ⟨hid, htype, p, hp, hi, rfl, w, (mem_valuesOf hv).mp hw, hwo⟩
      · rintro ⟨-, -, p', hp', -, rfl, w, hw, hwo⟩
        obtain rfl : p = p' := Except.ok.inj (hp.symm.trans hp')
        obtain ⟨o, ho, hwo'⟩ := exists_right_of_mem henc ((mem_valuesOf hv).mpr hw)
        rw [hwo', Except.ok.injEq] at hwo
        exact ⟨o, ho, rfl, hwo⟩

theorem exists_statementsOf {d : Document} (h : d.statements s model = .ok statements)
    (hmem : (key, v) ∈ d) : ∃ sts, statementsOf s model key v = .ok sts := by
  obtain ⟨_, -, h⟩ := Outcome.bind_eq_ok.mp h
  obtain ⟨_, hv, -⟩ := Outcome.bind_eq_ok.mp h
  obtain ⟨sts, -, hsts⟩ := exists_right_of_mem (Outcome.mapM_eq_ok.mp hv) hmem
  exact ⟨sts, hsts⟩

/-- The statements that are stored of a document are the ones that it has. -/
theorem mem_statements {d : Document} (h : d.statements s model = .ok statements) :
    (predicate, object) ∈ statements ↔ d.HasStatement s model predicate object := by
  obtain ⟨c, hc, h⟩ := Outcome.bind_eq_ok.mp h
  obtain ⟨lists, hlists, h⟩ := Outcome.bind_eq_ok.mp h
  obtain rfl := Except.ok.inj h
  have hkeys := Outcome.mapM_eq_ok.mp hlists
  rw [hasStatement_iff, List.mem_cons, Prod.mk.injEq, List.mem_flatten]
  refine or_congr ⟨fun ⟨hp, ho⟩ => ⟨c, hc, hp, ho⟩, fun ⟨c', hc', hp, ho⟩ => ?_⟩ ?_
  · rw [hc, Except.ok.injEq] at hc'
    exact ⟨hp, hc' ▸ ho⟩
  constructor
  · rintro ⟨sts, hsts, hm⟩
    obtain ⟨⟨key, v⟩, hd, hst⟩ := exists_left_of_mem hkeys hsts
    exact ⟨key, v, hd, (mem_statementsOf hst).mp hm⟩
  · rintro ⟨key, v, hd, hs⟩
    obtain ⟨sts, hsts, hst⟩ := exists_right_of_mem hkeys hd
    exact ⟨sts, hsts, (mem_statementsOf hst).mpr hs⟩

end Document

end DocGraph
