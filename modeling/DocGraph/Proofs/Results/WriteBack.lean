import DocGraph.Proofs.Codec.Encode
import DocGraph.Proofs.Codec.References
import DocGraph.Proofs.Codec.Scalars
import DocGraph.Results.Decoder

/-!
# Writing a value back

A value is stored as a term, and a column with that term is decoded to a value. The
main result is `encode_columnValue_iff`: which terms the decoded value is stored as
again. They are

* for a relation, the URIs of the instances of its model with an identifier;
* for a number, all literals but the doubles that are written like an integer;
* for any other scalar, all literals.

The decoder reads a number by its text and a reference by the model that the relation
is declared with, while the encoder had the value itself and the model that a
reference names.
-/

namespace DocGraph

open Json (Value)
open Rdf (Literal Term xsd)

/-- Whether the value that a term of a property is decoded to is stored as that term
again. -/
def Property.IsKept (s : Schema) (p : Property) (t : Term) : Prop :=
  match p.kind with
  | .scalar kind => ¬(kind = .number ∧ ∃ l, t = .literal l ∧ Scalar.IsIntegral l)
  | .relation related | .inverse related _ =>
    ∃ id i, id ≠ "" ∧ s.instanceUri related id = .ok i ∧ t = .iri i

namespace ValueKind

variable {s : Schema} {model key : String} {m : Model} {p : Property}

/-- What the values of a property are. -/
theorem ofPath_property (hs : s.WellFormed) (hm : s.model? model = some m)
    (hp : m.property? key = some p) :
    ofPath s model (.ofText key) =
      match p.kind with
      | .scalar kind => .ok (.scalar kind)
      | .relation related | .inverse related _ => .ok (.reference related) := by
  simp only [ofPath, Schema.resolve_property hs hm hp, Outcome.ok_bind, ResolvedPath.terminal?,
    List.getLast?_singleton]
  cases p.kind <;> rfl

end ValueKind

namespace Decoder

variable {dec : Decoder} {model key : String} {m : Model} {p : Property} {v : Value} {t : Term}

/-- The value of a literal of a scalar property. -/
theorem encode_value_scalar (dec : Decoder) {kind : ScalarKind} {path : String} {l : Literal}
    (h : Scalar.encode kind path v = .ok l)
    (hyear : kind = .date → l.value.toList.head? ≠ some '-') :
    ∃ out, dec.value (.scalar kind) (.literal l) = .ok out ∧ ∀ v', out = some v' →
      (Scalar.encode kind path v' = .ok l ↔ ¬(kind = .number ∧ Scalar.IsIntegral l)) := by
  obtain ⟨w, hw, hback⟩ := Scalar.encode_decode_iff h hyear
  have hvalue : dec.value (.scalar kind) (.literal l) =
      .ok (if isEmptyLiteral (.literal l) then none else some w) := by
    simp only [value, Schema.decode, hw, Outcome.ok_bind, Outcome.pure_eq]
  refine ⟨_, hvalue, fun v' hv' => ?_⟩
  split at hv'
  · cases hv'
  · obtain rfl := Option.some.inj hv'
    exact hback

/-- The reference of an instance of a model is its identifier. -/
theorem reference_of_instanceUri {related id : String} {i : Rdf.Iri}
    (h : dec.schema.instanceUri related id = .ok i) (hid : id ≠ "") :
    dec.reference related i.text = .str id := by
  obtain ⟨m, hm, -⟩ := Schema.instanceUri_eq_ok.mp h
  rw [reference, hm, Option.bind_some, Schema.idOfInstance?_of_instanceUri hm h hid,
    Option.getD_some]

/-- The value that a column of one value decodes a stored term to is stored as that
term again exactly if the term is kept. Dates whose year has a sign are left out. -/
theorem encode_columnValue_iff {d : SchemaDefinition} {s : Schema} (hbuilt : d.build = .ok s)
    (hm : s.model? model = some m) (hp : m.property? key = some p) (hforward : p.isInverse = false)
    (henc : s.encode model (.ofText key) v = .ok t)
    (hyear : p.kind = .scalar .date → t.lexical.toList.head? ≠ some '-')
    (hdec : dec.schema = s) (field : FieldPath) (hfield : field.path = .ofText key)
    {c : DecodedColumn} (hc : ColumnKind.ofSelector s model (.scalar field) = .ok c.kind) :
    ∃ out, dec.columnValue c t = .ok out ∧ ∀ v', out = some v' → isBlank v' = false →
      (s.encode model (.ofText key) v' = .ok t ↔ p.IsKept s t) := by
  have hs := SchemaDefinition.build_wellFormed hbuilt
  obtain ⟨kind, hkind, hc⟩ := Outcome.bind_eq_ok.mp hc
  rw [hfield, ValueKind.ofPath_property hs hm hp] at hkind
  have hcolumn : dec.columnValue c t = dec.value kind t := by
    rw [columnValue, ← Except.ok.inj hc]
  rw [hcolumn]
  unfold Property.IsKept
  cases hk : p.kind with
  | scalar scalarKind =>
    rw [hk] at hkind
    obtain rfl := Except.ok.inj hkind
    obtain ⟨l, hl, rfl⟩ := (Schema.encode_scalar_eq_ok hs hm hp hk).mp henc
    obtain ⟨out, hout, hback⟩ :=
      encode_value_scalar dec hl fun hdate => hyear (hdate ▸ hk)
    refine ⟨out, hout, fun v' hv' _ => ?_⟩
    simp only [Schema.encode_scalar_eq_ok hs hm hp hk, Term.literal.injEq, exists_eq_right,
      exists_eq_left', hback v' hv']
  | relation related =>
    rw [hk] at hkind
    obtain rfl := Except.ok.inj hkind
    obtain ⟨i, hi, rfl⟩ := (Schema.encode_relation_eq_ok hs hm hp hk).mp henc
    refine ⟨some (dec.reference related i.text), rfl, fun v' hv' hblank => ?_⟩
    obtain rfl := Option.some.inj hv'
    simp only [Schema.encode_relation_eq_ok hs hm hp hk, Term.iri.injEq, exists_eq_right]
    constructor
    · intro hback
      refine ⟨_, i, fun hempty => ?_, hback, rfl⟩
      simp [isBlank, reference, hempty] at hblank
    · rintro ⟨id, i', hid, huri, rfl⟩
      rw [reference_of_instanceUri (hdec ▸ huri) hid]
      exact huri
  | inverse related origin =>
    rw [Property.isInverse, hk] at hforward
    cases hforward

/-- The mentor of a person, given as an object, is kept. -/
theorem encode_columnValue_mentor :
    ∃ out, columnValue ⟨peopleSchema, []⟩
        ⟨"mentor", .value (.reference "Person"), .ascending⟩
        (.iri ⟨"http://example.org/instances/person/a%2F1"⟩) = .ok out ∧
      ∀ v', out = some v' → isBlank v' = false →
        (peopleSchema.encode "Person" (.ofText "mentor") v' =
            .ok (.iri ⟨"http://example.org/instances/person/a%2F1"⟩) ↔
          Property.IsKept peopleSchema ((person.property? "mentor").get (by decide))
            (.iri ⟨"http://example.org/instances/person/a%2F1"⟩)) :=
  encode_columnValue_iff (m := person) (v := .obj [("_id", .str "a/1"), ("_type", .str "Person")])
    people_build rfl (Option.some_get _).symm rfl rfl (fun h => absurd h (by decide)) rfl
    ⟨.ofText "mentor", none⟩ rfl rfl

/-- The number 5.0 is stored as a double that is written like an integer. -/
theorem not_kept_five :
    ¬∀ (d : SchemaDefinition) (s : Schema) (model key : String) (m : Model) (p : Property)
      (v v' : Value) (t : Term) (dec : Decoder) (field : FieldPath) (c : DecodedColumn),
      d.build = .ok s → s.model? model = some m → m.property? key = some p →
      p.isInverse = false → s.encode model (.ofText key) v = .ok t → dec.schema = s →
      field.path = .ofText key → ColumnKind.ofSelector s model (.scalar field) = .ok c.kind →
      dec.columnValue c t = .ok (some v') → isBlank v' = false →
      s.encode model (.ofText key) v' = .ok t := by
  intro h
  have hs := SchemaDefinition.build_wellFormed people_build
  have hm : peopleSchema.model? "Person" = some person := rfl
  obtain ⟨p, hp⟩ : ∃ p, person.property? "age" = some p := ⟨_, rfl⟩
  have hk : p.kind = .scalar .number := by
    obtain rfl := Option.some.inj hp
    rfl
  have hencode (v : Value) (t : Term) := Schema.encode_scalar_eq_ok (v := v) (t := t) hs hm hp hk
  have hfive : Scalar.doubleLayout.text ⟨false, 1025 * 4503599627370496 + 1125899906842624,
      by decide⟩ = "5" := by
    decide +kernel
  have hback := h people peopleSchema "Person" "age" person p
    (.num (.float ⟨false, 1025 * 4503599627370496 + 1125899906842624, by decide⟩))
    (.num (.integer ⟨5, by decide, by decide⟩)) (.literal (.typed "5" (xsd "double")))
    ⟨peopleSchema, []⟩ ⟨.ofText "age", none⟩ ⟨"age", .value (.scalar .number), .ascending⟩
    people_build hm hp (by rw [Property.isInverse, hk])
    ((hencode _ _).mpr
      ⟨_, congrArg (fun s => Except.ok (Literal.typed s (xsd "double"))) hfive, rfl⟩)
    rfl rfl (by rfl) (by rfl) rfl
  obtain ⟨l, hl, hne⟩ := (hencode _ _).mp hback
  obtain rfl := Term.literal.inj hne
  cases hl

end Decoder

end DocGraph
