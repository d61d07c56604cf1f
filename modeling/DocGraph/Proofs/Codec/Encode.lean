import DocGraph.Codec.Value
import DocGraph.Proofs.Schema.Steps

/-!
# What stores a value

The term that stores a value depends on what the path ends with: an IRI for an
identifier, a type and a relation, a literal for a scalar. It is never a blank
node (`encode_ne_blank`).
-/

namespace DocGraph

open Json (Value)
open Rdf (Iri Term)

namespace Schema

variable {s : Schema} {model : String} {path : Path} {v : Value} {t : Term} {r : ResolvedPath}

/-- A value is stored as an IRI, or as a literal where the path ends with a
scalar. -/
theorem encode_cases (h : s.resolve model path = .ok r) (ht : s.encode model path v = .ok t) :
    (∃ i, t = .iri i) ∨
      ∃ step p kind l, r.terminal? = some step ∧ step.target = .property p ∧
        p.kind = .scalar kind ∧ t = .literal l := by
  unfold encode at ht
  rw [h, Outcome.ok_bind] at ht
  split at ht
  · obtain ⟨i, -, ht⟩ := Outcome.bind_eq_ok.mp ht
    exact .inl ⟨i, (Except.ok.inj ht).symm⟩
  · next step hstep =>
    split at ht
    · split at ht
      · obtain ⟨i, -, ht⟩ := Outcome.bind_eq_ok.mp ht
        exact .inl ⟨i, (Except.ok.inj ht).symm⟩
      · cases ht
    · obtain ⟨i, -, ht⟩ := Outcome.bind_eq_ok.mp ht
      exact .inl ⟨i, (Except.ok.inj ht).symm⟩
    · next p hp =>
      split at ht
      · next kind hk =>
        obtain ⟨l, -, ht⟩ := Outcome.bind_eq_ok.mp ht
        exact .inr ⟨step, p, kind, l, hstep, hp, hk, (Except.ok.inj ht).symm⟩
      · obtain ⟨i, -, ht⟩ := Outcome.bind_eq_ok.mp ht
        exact .inl ⟨i, (Except.ok.inj ht).symm⟩
      · obtain ⟨i, -, ht⟩ := Outcome.bind_eq_ok.mp ht
        exact .inl ⟨i, (Except.ok.inj ht).symm⟩

theorem resolve_of_encode (h : s.encode model path v = .ok t) :
    ∃ r, s.resolve model path = .ok r := by
  obtain ⟨r, hr, -⟩ := Outcome.bind_eq_ok.mp h
  exact ⟨r, hr⟩

/-- What stores a value is never a blank node. -/
theorem encode_ne_blank (h : s.encode model path v = .ok t) (name : String) : t ≠ .blank name := by
  obtain ⟨r, hr⟩ := resolve_of_encode h
  rcases encode_cases hr h with ⟨i, rfl⟩ | ⟨step, p, kind, l, -, -, -, rfl⟩ <;> exact nofun

/-- A path without hops has an IRI as its value. -/
theorem exists_iri_of_encode (hr : s.resolve model path = .ok r)
    (hhops : withoutIdentity r.steps = []) (h : s.encode model path v = .ok t) :
    ∃ i, t = .iri i := by
  rcases encode_cases hr h with hi | ⟨step, p, kind, l, hstep, hp, -, -⟩
  · exact hi
  · have hne : step.target ≠ .identity := by simp [hp]
    simp only [withoutIdentity, show r.steps.getLast? = some step from hstep, hne, if_false]
      at hhops
    rw [ResolvedPath.terminal?, hhops] at hstep
    cases hstep

/-! ## Values of a property -/

variable {m : Model} {key related : String} {p : Property} {kind : ScalarKind}

theorem text_ofText (hs : s.WellFormed) (hm : s.model? model = some m)
    (hp : m.property? key = some p) : (Path.ofText key).text = key := by
  rw [Path.ofText_of_isFieldSegment (isFieldSegment_of_property hs hm hp)]
  simp [Path.text, Text.join]

/-- A scalar is stored as a literal of its kind. -/
theorem encode_scalar_eq_ok (hs : s.WellFormed) (hm : s.model? model = some m)
    (hp : m.property? key = some p) (hk : p.kind = .scalar kind) :
    s.encode model (.ofText key) v = .ok t ↔
      ∃ l, Scalar.encode kind key v = .ok l ∧ .literal l = t := by
  simp only [encode, resolve_property hs hm hp, Outcome.ok_bind, ResolvedPath.terminal?,
    List.getLast?_singleton, hk, text_ofText hs hm hp, Outcome.bind_eq_ok, Outcome.pure_eq,
    Except.ok.injEq]

/-- A relation is stored as a reference to its model. -/
theorem encode_relation_eq_ok (hs : s.WellFormed) (hm : s.model? model = some m)
    (hp : m.property? key = some p) (hk : p.kind = .relation related) :
    s.encode model (.ofText key) v = .ok t ↔
      ∃ i, s.encodeReference related key v = .ok i ∧ .iri i = t := by
  simp only [encode, resolve_property hs hm hp, Outcome.ok_bind, ResolvedPath.terminal?,
    List.getLast?_singleton, hk, text_ofText hs hm hp, Outcome.bind_eq_ok, Outcome.pure_eq,
    Except.ok.injEq]

end Schema

end DocGraph
