import DocGraph.Codec.Value
import DocGraph.Proofs.Schema.Steps

/-!
# Values that are not stored

A path that does not resolve has an unknown model or an unknown property
(`Schema.error_of_resolve`): the models that its relations lead to are known. A value is
refused with its path, or for one of four reasons (`Schema.Refuses`,
`Schema.error_of_encode`).
-/

namespace DocGraph

open Json (Value)
open Rdf (Iri)
open Text (Percent.encode)

variable {s : Schema} {model : String} {path : Path} {v : Value} {e : Error}

namespace Schema

theorem model_eq_error :
    s.model model = .error e ↔ s.model? model = none ∧ e = .unknownModel model := by
  rw [Schema.model]
  cases s.model? model <;> simp [eq_comm]

/-- The relations of a path lead to models that are known. -/
theorem error_of_stepsFrom (hs : s.WellFormed) {unknown : Error} {owner : Model}
    {segments : List String} (ho : owner ∈ s.models)
    (h : s.stepsFrom unknown owner segments = .error e) : e = unknown := by
  induction segments generalizing owner with
  | nil => cases h
  | cons segment rest ih =>
    cases rest with
    | nil =>
      cases htarget : lastTarget? owner segment with
      | some target => simp [stepsFrom, htarget] at h
      | none => simpa [stepsFrom, htarget, eq_comm] using h
    | cons next rest =>
      cases hrelation : relation? owner segment with
      | none => simpa [stepsFrom, hrelation, eq_comm] using h
      | some p =>
        obtain ⟨hp, hrelated⟩ := property_of_relation? hrelation
        obtain ⟨m, hm⟩ := hs.model_of_related ho hp hrelated
        simp only [stepsFrom, hrelation, model_eq_ok.mpr hm, Outcome.ok_bind] at h
        exact ih (mem_of_model? hm) (Outcome.bind_pure_eq_error.mp h)

/-- A path does not resolve if its model is unknown, or else a property of it. -/
theorem error_of_resolve (hs : s.WellFormed) (h : s.resolve model path = .error e) :
    s.model? model = none ∧ e = .unknownModel model ∨
      (∃ m, s.model? model = some m) ∧ e = .unknownProperty model path.text := by
  rcases Outcome.bind_eq_error.mp h with h | ⟨m, hm, h⟩
  · exact .inl (model_eq_error.mp h)
  · rw [model_eq_ok] at hm
    exact .inr ⟨⟨m, hm⟩, error_of_stepsFrom hs (mem_of_model? hm) (Outcome.bind_pure_eq_error.mp h)⟩

/-- Why a value is refused at a path. -/
inductive Refuses (s : Schema) (path : Path) (v : Value) : Error → Prop
  /-- The path holds values of another kind. -/
  | kind (fault : ValueFault) : Refuses s path v (.invalidValue path.text fault)
  /-- A type or a reference names a model that there is not. -/
  | model {name : String} : s.model? name = none → Refuses s path v (.unknownModel name)
  /-- The URI of a referenced instance is not absolute. -/
  | iri {m : Model} {id : String} : m ∈ s.models →
      Iri.ofText? (m.instancePrefix ++ Percent.encode id) = none → Refuses s path v .malformedIri
  /-- A date lies in no year of the calendar. -/
  | calendar {t : Timestamp} : Timestamp.ofValue? v = some t → t.text? = none →
      Refuses s path v .timestampRange

theorem refuses_of_model (h : s.model model = .error e) : s.Refuses path v e := by
  obtain ⟨hm, rfl⟩ := model_eq_error.mp h
  exact .model hm

theorem refuses_of_instanceUri {id : String} (h : s.instanceUri model id = .error e) :
    s.Refuses path v e := by
  rcases Outcome.bind_eq_error.mp h with h | ⟨m, hm, h⟩
  · exact refuses_of_model h
  · unfold absoluteIri at h
    split at h
    · cases h
    · next htext =>
      obtain rfl := Except.error.inj h
      exact .iri (mem_of_model? (model_eq_ok.mp hm)) htext

theorem refuses_of_encodeReference (h : s.encodeReference model path.text v = .error e) :
    s.Refuses path v e := by
  unfold encodeReference at h
  split at h
  · exact refuses_of_instanceUri h
  · split at h
    · exact refuses_of_instanceUri h
    · obtain rfl := Except.error.inj h
      exact .kind _
  · obtain rfl := Except.error.inj h
    exact .kind _

theorem refuses_of_timestampText (h : Scalar.timestampText v = .error e) : s.Refuses path v e := by
  unfold Scalar.timestampText at h
  split at h
  · cases h
  · next t ht =>
    split at h
    · cases h
    · next htext =>
      obtain rfl := Except.error.inj h
      exact .calendar ht htext

theorem refuses_of_scalar {kind : ScalarKind} (h : Scalar.encode kind path.text v = .error e) :
    s.Refuses path v e := by
  have hmismatch (h : Error.invalidValue path.text (.expected kind) = e) : s.Refuses path v e :=
    h ▸ .kind _
  cases kind with
  | date =>
    rcases Outcome.bind_eq_error.mp h with h | ⟨text, -, h⟩
    · exact refuses_of_timestampText h
    · cases text with
      | none => exact hmismatch (Except.error.inj h)
      | some text => cases h
  | string =>
    cases v with
    | str _ | num _ | bool _ => cases h
    | null | arr _ | obj _ => exact hmismatch (Except.error.inj h)
  | number =>
    cases v with
    | num _ => cases h
    | str text =>
      simp only [Scalar.encode] at h
      split at h
      · cases h
      · exact hmismatch (Except.error.inj h)
    | null | bool _ | arr _ | obj _ => exact hmismatch (Except.error.inj h)
  | boolean =>
    cases v with
    | bool _ => cases h
    | str text =>
      simp only [Scalar.encode] at h
      split at h
      · cases h
      · exact hmismatch (Except.error.inj h)
    | null | num _ | arr _ | obj _ => exact hmismatch (Except.error.inj h)

/-- A value is refused with its path, or for a reason of its own. -/
theorem error_of_encode (h : s.encode model path v = .error e) :
    s.resolve model path = .error e ∨ s.Refuses path v e := by
  have href {model : String} (h : (do return .iri (← s.encodeReference model path.text v)) =
      (.error e : Outcome Rdf.Term)) : s.Refuses path v e :=
    refuses_of_encodeReference (Outcome.bind_pure_eq_error.mp h)
  refine (Outcome.bind_eq_error.mp h).imp_right fun ⟨r, _, h⟩ => ?_
  split at h
  · exact href h
  · split at h
    · split at h
      · rcases Outcome.bind_eq_error.mp (Outcome.bind_pure_eq_error.mp h) with h | ⟨m, -, h⟩
        · exact refuses_of_model h
        · cases h
      · obtain rfl := Except.error.inj h
        exact .kind _
    · exact href h
    · split at h
      · exact refuses_of_scalar (Outcome.bind_pure_eq_error.mp h)
      · exact href h
      · exact href h

end Schema

end DocGraph
