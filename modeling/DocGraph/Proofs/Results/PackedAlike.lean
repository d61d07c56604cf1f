import DocGraph.Proofs.Results.Columns
import DocGraph.Proofs.Results.Stored
import DocGraph.Proofs.Results.ValueOrder
import DocGraph.Proofs.Schema.Identities

/-!
# Packed values are decoded like single ones

A single value is decoded from its term, by the datatype of a literal or as an IRI; a packed
one from its text alone, by what the schema says of its path. For what stores a value at the
path the two agree (`Decoder.exists_decodesAlike`), so an array is the sorted list of what its
terms are decoded to one by one (`Decoder.columnValue_packedValues`).
-/

namespace DocGraph

open Json (Value)
open Rdf (Iri Literal Term)
open Text (Percent.encode)

/-! ## Texts of URIs -/

namespace Schema

variable {s : Schema} {model : String} {path : Path} {v : Value} {t : Term} {i : Iri}

theorem ne_empty_of_absoluteIri {text : String} (h : absoluteIri text = .ok i) : i.text ≠ "" := by
  rw [text_of_absoluteIri h]
  rintro rfl
  cases h

theorem ne_empty_of_instanceUri {id : String} (h : s.instanceUri model id = .ok i) :
    i.text ≠ "" := by
  obtain ⟨m, -, h⟩ := instanceUri_eq_ok.mp h
  exact ne_empty_of_absoluteIri h

theorem ne_empty_of_encodeReference {text : String} (h : s.encodeReference model text v = .ok i) :
    i.text ≠ "" := by
  unfold encodeReference at h
  split at h
  · exact ne_empty_of_instanceUri h
  · split at h
    · exact ne_empty_of_instanceUri h
    · cases h
  · cases h

/-- The class of a model that has been built has a URI. -/
theorem ne_empty_of_classUri {definition : SchemaDefinition} (hbuild : definition.build = .ok s)
    (h : s.classUri model = .ok i) : i.text ≠ "" := by
  obtain ⟨m, hm, h⟩ := Outcome.bind_eq_ok.mp h
  obtain rfl := Except.ok.inj h
  obtain ⟨table, hmodels⟩ := SchemaDefinition.forall₂_of_build hbuild
  obtain ⟨md, -, hmodel⟩ := exists_left_of_mem hmodels (mem_of_model? (model_eq_ok.mp hm))
  obtain ⟨_, -, hmodel⟩ := Outcome.bind_eq_ok.mp hmodel
  obtain ⟨classUri, hclass, hmodel⟩ := Outcome.bind_eq_ok.mp hmodel
  rw [← Except.ok.inj hmodel]
  exact ne_empty_of_absoluteIri hclass

/-- What stores a value at a path, by what the values at the path are: a literal of their kind,
the URI of an instance, or the URI of a class. -/
theorem encode_cases_of_ofPath {kind : ValueKind} (hkind : ValueKind.ofPath s model path = .ok kind)
    (h : s.encode model path v = .ok t) :
    (∃ scalar l, kind = .scalar scalar ∧ Scalar.encode scalar path.text v = .ok l ∧
      t = .literal l) ∨
    (∃ related target i, kind = .reference related ∧
      s.encodeReference target path.text v = .ok i ∧ t = .iri i) ∨
    ∃ name i, kind = .type ∧ s.classUri name = .ok i ∧ t = .iri i := by
  obtain ⟨r, hr, hkind⟩ := Outcome.bind_eq_ok.mp hkind
  obtain ⟨r', hr', h⟩ := Outcome.bind_eq_ok.mp h
  obtain rfl := Except.ok.inj (hr.symm.trans hr')
  have hreference {related target : String} (hkind : .reference related = kind)
      (h : (do return .iri (← s.encodeReference target path.text v) : Outcome Term) = .ok t) :
      ∃ related target i, kind = .reference related ∧
        s.encodeReference target path.text v = .ok i ∧ t = .iri i := by
    obtain ⟨i, hi, h⟩ := Outcome.bind_eq_ok.mp h
    exact ⟨related, target, i, hkind.symm, hi, (Except.ok.inj h).symm⟩
  cases hterminal : r.terminal? with
  | none =>
    simp only [hterminal] at hkind h
    exact .inr (.inl (hreference (Except.ok.inj hkind) h))
  | some step =>
    simp only [hterminal] at hkind h
    cases htarget : step.target with
    | identity =>
      simp only [htarget] at hkind h
      exact .inr (.inl (hreference (Except.ok.inj hkind) h))
    | type =>
      simp only [htarget] at hkind h
      obtain rfl := Except.ok.inj hkind
      cases v with
      | str name =>
        obtain ⟨i, hi, h⟩ := Outcome.bind_eq_ok.mp h
        exact .inr (.inr ⟨name, i, rfl, hi, (Except.ok.inj h).symm⟩)
      | _ => cases h
    | property p =>
      simp only [htarget] at hkind h
      cases hk : p.kind with
      | scalar scalar =>
        simp only [hk] at hkind h
        obtain ⟨l, hl, h⟩ := Outcome.bind_eq_ok.mp h
        exact .inl ⟨scalar, l, (Except.ok.inj hkind).symm, hl, (Except.ok.inj h).symm⟩
      | relation related =>
        simp only [hk] at hkind h
        exact .inr (.inl (hreference (Except.ok.inj hkind) h))
      | inverse related origin =>
        simp only [hk] at hkind h
        exact .inr (.inl (hreference (Except.ok.inj hkind) h))

end Schema

/-! ## Terms and their texts -/

namespace Decoder

variable {definition : SchemaDefinition} {d : Decoder} {model : String} {path : Path}
  {kind : ValueKind} {v : Value} {t : Term} {terms : List Term} {outs : List (Option Value)}

/-- Whether a term is decoded to a value, and its text to the same one. A term without a text
has none. -/
def DecodesAlike (d : Decoder) (kind : ValueKind) (t : Term) (out : Option Value) : Prop :=
  d.value kind t = .ok out ∧
    if t.lexical = "" then out = none else ∃ w, out = some w ∧ d.textValue kind t.lexical = .ok w

theorem decodesAlike_scalar {scalar : ScalarKind} {text : String} {l : Literal}
    (h : Scalar.encode scalar text v = .ok l) :
    ∃ out, d.DecodesAlike (.scalar scalar) (.literal l) out := by
  obtain ⟨w, hw⟩ := Scalar.exists_decode h
  have hvalue : d.value (.scalar scalar) (.literal l) =
      .ok (if isEmptyLiteral (.literal l) then none else some w) := by
    simp only [value, Schema.decode, hw, Outcome.ok_bind, Outcome.pure_eq]
  refine ⟨_, hvalue, ?_⟩
  by_cases hempty : l.value = ""
  · simp [Term.lexical, isEmptyLiteral, hempty]
  · rw [Term.lexical, if_neg hempty, isEmptyLiteral, if_neg (by simpa using hempty)]
    exact ⟨w, rfl, (Scalar.decodeText_value h).trans hw⟩

/-- What stores a value at a path is decoded like its text. -/
theorem exists_decodesAlike (hbuild : definition.build = .ok d.schema)
    (hkind : ValueKind.ofPath d.schema model path = .ok kind)
    (h : d.schema.encode model path v = .ok t) : ∃ out, d.DecodesAlike kind t out := by
  rcases Schema.encode_cases_of_ofPath hkind h with
    ⟨scalar, l, rfl, hl, rfl⟩ | ⟨related, target, i, rfl, hi, rfl⟩ |
    ⟨name, i, rfl, hi, rfl⟩
  · exact decodesAlike_scalar hl
  · refine ⟨some (d.reference related i.text), rfl, ?_⟩
    rw [Term.lexical, if_neg (Schema.ne_empty_of_encodeReference hi)]
    exact ⟨_, rfl, rfl⟩
  · refine ⟨some (.str (d.schema.modelNameOrUri i.text)), rfl, ?_⟩
    rw [Term.lexical, if_neg (Schema.ne_empty_of_classUri hbuild hi)]
    exact ⟨_, rfl, rfl⟩

/-- The texts of some terms, but for the empty ones, are decoded to what the terms are. -/
theorem mapM_textValue (h : List.Forall₂ (d.DecodesAlike kind) terms outs) :
    ((terms.map Term.lexical).filter (· ≠ "")).mapM (d.textValue kind) =
      .ok (outs.filterMap id) := by
  induction h with
  | nil => rfl
  | @cons t out terms outs hhere _ ih =>
    obtain ⟨-, hhere⟩ := hhere
    rw [List.map_cons]
    split at hhere
    · next hempty =>
      rw [hhere, List.filter_cons_of_neg (by simpa using hempty), ih, List.filterMap_cons_none rfl]
    · next hne =>
      obtain ⟨w, rfl, hw⟩ := hhere
      rw [List.filter_cons_of_pos (by simpa using hne), List.mapM_cons, hw, ih]
      rfl

/-- Packed values are decoded to the sorted list of what their terms are decoded to. -/
theorem columnValue_packedValues (h : List.Forall₂ (d.DecodesAlike kind) terms outs) (name : String)
    (direction : Direction) :
    d.columnValue ⟨name, .values kind, direction⟩
        (.literal (.plain (Packing.packedValues (terms.map fun t => Percent.encode t.lexical)))) =
      .ok (some (.arr (sortValues direction (outs.filterMap id)))) := by
  have hpacked : (terms.map fun t => Percent.encode t.lexical) =
      (terms.map Term.lexical).map Percent.encode := by rw [List.map_map]; rfl
  unfold columnValue
  dsimp only
  rw [hpacked, Term.lexical, Literal.value, Packing.unpackValues_packed, Outcome.ok_bind,
    mapM_textValue h, Outcome.ok_bind, Outcome.pure_eq]

/-- The array of the values at a path, packed from the texts of the terms that store them, is
decoded to the sorted list of the values that a single column of the path decodes these terms
to, without those that it drops, which are the ones with the empty text: the same values, each
in front of those that it should stand in front of. -/
theorem packed_values_decode_alike (hbuild : definition.build = .ok d.schema) {r : ResolvedPath}
    (hr : d.schema.resolve model path = .ok r) :
    ∃ kind, (∀ field : FieldPath, field.path = path →
        ColumnKind.ofSelector d.schema model (.scalar field) = .ok (.value kind) ∧
        ColumnKind.ofSelector d.schema model (.array field) = .ok (.values kind)) ∧
      ∀ terms, (∀ t ∈ terms, ∃ v, d.schema.encode model path v = .ok t) →
        ∃ outs, (∀ (name : String) (direction : Direction), List.Forall₂ (fun t out =>
            d.columnValue ⟨name, .value kind, direction⟩ t = .ok out ∧
              (out = none ↔ t.lexical = "")) terms outs) ∧
          ∀ (name : String) (direction : Direction), ∃ values,
            d.columnValue ⟨name, .values kind, direction⟩ (.literal (.plain (Packing.packedValues
                (terms.map fun t => Percent.encode t.lexical)))) = .ok (some (.arr values)) ∧
              values = sortValues direction (outs.filterMap id) ∧
              values.Perm (outs.filterMap id) ∧ values.Pairwise direction.InFront := by
  obtain ⟨kind, hkind⟩ := ValueKind.exists_ofPath hr
  refine ⟨kind, ?_, fun terms hterms => ?_⟩
  · rintro field rfl
    simp only [ColumnKind.ofSelector, hkind, Outcome.ok_bind, Outcome.pure_eq, and_self]
  · obtain ⟨outs, houts⟩ : ∃ outs, List.Forall₂ (d.DecodesAlike kind) terms outs :=
      exists_forall₂ fun t ht => by
        obtain ⟨v, hv⟩ := hterms t ht
        exact exists_decodesAlike hbuild hkind hv
    refine ⟨outs, fun name direction => houts.imp fun t out hout => ⟨hout.1, ?_⟩,
      fun name direction => ⟨_, columnValue_packedValues houts name direction, rfl,
        sortValues_perm direction _, pairwise_sortValues direction _⟩⟩
    obtain ⟨-, hout⟩ := hout
    split at hout
    · next hempty => exact iff_of_true hout hempty
    · next hne =>
      obtain ⟨w, rfl, -⟩ := hout
      exact iff_of_false (Option.some_ne_none w) hne

/-- The nicknames of a person, one of which is empty, as single values and packed. -/
theorem packed_values_decode_alike_nicknames :
    List.Forall₂ (fun t out =>
        columnValue ⟨peopleSchema, []⟩ ⟨"nickname", .value (.scalar .string), .ascending⟩ t =
          .ok out ∧ (out = none ↔ t.lexical = ""))
        [.literal (.plain "Al"), .literal (.plain ""), .literal (.plain "Bo")]
        [some (.str "Al"), none, some (.str "Bo")] ∧
      columnValue ⟨peopleSchema, []⟩ ⟨"nicknames", .values (.scalar .string), .descending⟩
          (.literal (.plain (Packing.packedValues ["Al", "", "Bo"]))) =
        .ok (some (.arr [.str "Bo", .str "Al"])) := by
  have hr : peopleSchema.resolve "Person" (.ofText "nicknames") = _ :=
    Schema.resolve_property (SchemaDefinition.build_wellFormed people_build) rfl rfl
  obtain ⟨kind, hkind, hterms⟩ :=
    packed_values_decode_alike (d := ⟨peopleSchema, []⟩) people_build hr
  obtain rfl : ValueKind.scalar .string = kind :=
    ColumnKind.values.inj (Except.ok.inj (hkind (.ofText "nicknames") rfl).2)
  obtain ⟨outs, houts, hpacked⟩ :=
    hterms [.literal (.plain "Al"), .literal (.plain ""), .literal (.plain "Bo")] <| by
      simp only [List.forall_mem_cons]
      exact ⟨⟨.str "Al", rfl⟩, ⟨.str "", rfl⟩, ⟨.str "Bo", rfl⟩, nofun⟩
  have hsingle := houts "nickname" .ascending
  -- a single column decodes each term to one value
  obtain rfl : outs = [some (.str "Al"), none, some (.str "Bo")] := by
    obtain _ | ⟨⟨hal, -⟩, _ | ⟨⟨hempty, -⟩, _ | ⟨⟨hbo, -⟩, _ | _⟩⟩⟩ := hsingle
    rw [← Except.ok.inj hal, ← Except.ok.inj hempty, ← Except.ok.inj hbo]
    rfl
  obtain ⟨values, hvalues, hsorted, -, -⟩ := hpacked "nicknames" .descending
  have hdescending : sortValues .descending [.str "Al", .str "Bo"] = [.str "Bo", .str "Al"] := by
    simp [sortValues, List.mergeSort, notAfter]
  obtain rfl : values = [.str "Bo", .str "Al"] := hsorted.trans hdescending
  exact ⟨hsingle, hvalues⟩

end Decoder

end DocGraph
