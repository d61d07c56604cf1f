import DocGraph.Proofs.Codec.References
import DocGraph.Proofs.Compile.KeyRows
import DocGraph.Proofs.Results.Keys
import DocGraph.Proofs.Results.WriteBack
import Mathlib.Data.List.Perm.Basic

/-!
# Reading the columns of a stored document

What the columns of a stored document are decoded to. A scalar is the decoded literal
that it is stored as, and a reference its identifier (`exists_value`). An array has one
element for each text, other than the empty one, that some of its elements is stored as
(`exists_columnValue`).
-/

namespace DocGraph

open Json (Value)
open Rdf (Literal Term)

namespace Scalar

variable {kind : ScalarKind} {path : String} {v w : Value} {l : Literal}

/-- A scalar is stored with a datatype of its kind. -/
theorem kindOf_datatype (h : encode kind path v = .ok l) : kindOf l.datatype = kind := by
  have hl := encode_eq_ok h
  cases kind with
  | string =>
    obtain ⟨s, rfl⟩ := hl
    exact kindOf_string
  | number =>
    obtain ⟨n, rfl⟩ := hl
    rcases ofNumber_cases n with ⟨i, -, -, hi⟩ | ⟨x, hx⟩
    · rw [hi]
      exact kindOf_integer
    · rw [hx]
      exact kindOf_double
  | boolean =>
    obtain ⟨b, rfl⟩ := hl
    exact kindOf_boolean
  | date =>
    obtain ⟨t, text, -, rfl⟩ := hl
    exact kindOf_dateTime

theorem decodeText_value (h : encode kind path v = .ok l) : decodeText kind l.value = decode l := by
  rw [decode, kindOf_datatype h]

/-- The empty text is read as itself. -/
theorem decodeText_empty (kind : ScalarKind) : decodeText kind "" = .ok (.str "") := by
  cases kind <;> rfl

end Scalar

namespace Property

/-- Whether a value of a property reads as another one when it is stored: a scalar as its
literal is decoded, and a reference as it is. -/
def Reads (p : Property) (key : String) (v w : Value) : Prop :=
  match p.kind with
  | .scalar kind => ∃ l, Scalar.encode kind key v = .ok l ∧ Scalar.decode l = .ok w
  | .relation _ | .inverse _ _ => w = v

/-- Whether a value of a property is stored as a term with a text. -/
def HasText (s : Schema) (model key : String) (v : Value) (text : String) : Prop :=
  ∃ t, s.encode model (.ofText key) v = .ok t ∧ t.lexical = text

/-- Whether a property with some values reads as an array of values, one for each text that
is not empty, or as its only value. A blank value reads as none. -/
def ReadsAs (s : Schema) (model key : String) (p : Property) (values : List Value)
    (out : Option Value) : Prop :=
  if p.isArray then
    ∃ texts ws, texts.Nodup ∧
      (∀ text, text ∈ texts ↔ text ≠ "" ∧ ∃ v ∈ values, HasText s model key v text) ∧
      List.Forall₂ (fun text w => ∃ v ∈ values, HasText s model key v text ∧ p.Reads key v w)
        texts ws ∧
      out = Decoder.present (some (.arr ws))
  else ∃ v w, values = [v] ∧ p.Reads key v w ∧ out = Decoder.present (some w)

/-- Whether a value may stand for a property: any value of a scalar, and the identifier of an
instance at a relation. -/
def Admits (p : Property) (v : Value) : Prop :=
  p.isRelation = true → ∃ id, id ≠ "" ∧ v = .str id

end Property

namespace Decoder

variable {d : Decoder} {s : Schema} {m : Model} {key : String} {p : Property} {v : Value} {t : Term}

/-- The term of a property, by its kind. -/
theorem encode_cases (hs : s.WellFormed) (hm : s.model? m.name = some m)
    (hp : m.property? key = some p) (hforward : p.isInverse = false) (hadmits : p.Admits v)
    (h : s.encode m.name (.ofText key) v = .ok t) :
    (∃ kind l, p.kind = .scalar kind ∧ Scalar.encode kind key v = .ok l ∧ t = .literal l) ∨
      ∃ related id i, p.kind = .relation related ∧ v = .str id ∧ id ≠ "" ∧
        s.instanceUri related id = .ok i ∧ t = .iri i := by
  cases hk : p.kind with
  | scalar kind =>
    obtain ⟨l, hl, rfl⟩ := (Schema.encode_scalar_eq_ok hs hm hp hk).mp h
    exact .inl ⟨kind, l, rfl, hl, rfl⟩
  | relation related =>
    obtain ⟨i, hi, rfl⟩ := (Schema.encode_relation_eq_ok hs hm hp hk).mp h
    obtain ⟨id, hid, rfl⟩ := hadmits (by rw [Property.isRelation, hk])
    exact .inr ⟨related, id, i, rfl, rfl, hid, hi, rfl⟩
  | inverse related origin =>
    rw [Property.isInverse, hk] at hforward
    cases hforward

/-- The text of a stored value is decoded to what the value reads as. -/
theorem exists_textValue (hs : d.schema.WellFormed) (hm : d.schema.model? m.name = some m)
    (hp : m.property? key = some p) (hforward : p.isInverse = false) (hadmits : p.Admits v)
    (h : d.schema.encode m.name (.ofText key) v = .ok t) :
    ∃ w, d.textValue p.valueKind t.lexical = .ok w ∧ p.Reads key v w := by
  unfold Property.valueKind Property.Reads
  rcases encode_cases hs hm hp hforward hadmits h with
    ⟨kind, l, hk, hl, rfl⟩ | ⟨related, id, i, hk, rfl, hid, hi, rfl⟩
  · obtain ⟨w, hw⟩ := Scalar.exists_decode hl
    rw [hk]
    exact ⟨w, (Scalar.decodeText_value hl).trans hw, l, hl, hw⟩
  · rw [hk]
    exact ⟨_, congrArg Except.ok (reference_of_instanceUri hi hid), rfl⟩

/-- The term of a stored value is decoded to what the value reads as. -/
theorem exists_value (hs : d.schema.WellFormed) (hm : d.schema.model? m.name = some m)
    (hp : m.property? key = some p) (hforward : p.isInverse = false) (hadmits : p.Admits v)
    (h : d.schema.encode m.name (.ofText key) v = .ok t) :
    ∃ out w, d.value p.valueKind t = .ok out ∧ p.Reads key v w ∧
      present out = present (some w) := by
  unfold Property.valueKind Property.Reads
  rcases encode_cases hs hm hp hforward hadmits h with
    ⟨kind, l, hk, hl, rfl⟩ | ⟨related, id, i, hk, rfl, hid, hi, rfl⟩
  · obtain ⟨w, hw⟩ := Scalar.exists_decode hl
    rw [hk]
    have hvalue : d.value (.scalar kind) (.literal l) =
        .ok (if isEmptyLiteral (.literal l) then none else some w) := by
      simp only [value, Schema.decode, hw, Outcome.ok_bind, Outcome.pure_eq]
    refine ⟨_, w, hvalue, ⟨l, hl, hw⟩, ?_⟩
    by_cases hempty : l.value = ""
    · have hblank : w = .str "" := by
        rw [← Scalar.decodeText_value hl, hempty, Scalar.decodeText_empty, Except.ok.injEq] at hw
        exact hw.symm
      rw [hblank, isEmptyLiteral, if_pos (decide_eq_true hempty)]
      rfl
    · simp [isEmptyLiteral, hempty]
  · rw [hk]
    exact ⟨_, _, congrArg (fun v => Except.ok (some v)) (reference_of_instanceUri hi hid), rfl, rfl⟩

/-- The packed column of an array is decoded to the values of its texts. -/
theorem exists_values (hs : d.schema.WellFormed) (hm : d.schema.model? m.name = some m)
    (hp : m.property? key = some p) (hforward : p.isInverse = false) {values : List Value}
    (hadmits : ∀ v ∈ values, p.Admits v) {terms : List Term}
    (h : List.Forall₂ (fun v t => d.schema.encode m.name (.ofText key) v = .ok t) values terms)
    {texts : List String} (hdistinct : texts.Nodup)
    (htexts : ∀ text, text ∈ texts ↔ ∃ t ∈ terms, t.lexical = text) (many : p.isArray = true) :
    ∃ out, d.columnValue ⟨key, .values p.valueKind, .ascending⟩
        (.literal (.plain (Packing.packedValues (texts.map Text.Percent.encode)))) = .ok out ∧
      p.ReadsAs d.schema m.name key values (present out) := by
  have hread : ∀ text ∈ texts.filter (· ≠ ""), ∃ w, d.textValue p.valueKind text = .ok w ∧
      ∃ v ∈ values, Property.HasText d.schema m.name key v text ∧ p.Reads key v w := by
    intro text htext
    obtain ⟨t, ht, rfl⟩ := (htexts text).mp (List.mem_of_mem_filter htext)
    obtain ⟨v, hv, henc⟩ := exists_left_of_mem h ht
    obtain ⟨w, hw, hreads⟩ := exists_textValue hs hm hp hforward (hadmits v hv) henc
    exact ⟨w, hw, v, hv, ⟨t, henc, rfl⟩, hreads⟩
  obtain ⟨ws, hws⟩ := exists_forall₂ hread
  have hvalues : (texts.filter (· ≠ "")).mapM (d.textValue p.valueKind) = .ok ws :=
    Outcome.mapM_eq_ok.mpr (hws.imp fun _ _ hw => hw.1)
  have hcolumn : d.columnValue ⟨key, .values p.valueKind, .ascending⟩
      (.literal (.plain (Packing.packedValues (texts.map Text.Percent.encode)))) =
        .ok (some (.arr (sortValues .ascending ws))) := by
    unfold columnValue
    dsimp only
    rw [Term.lexical, Literal.value, Packing.unpackValues_packed, Outcome.ok_bind, hvalues,
      Outcome.ok_bind, Outcome.pure_eq]
  -- the values are sorted, and the texts with them
  have hsorted : Relation.Comp (List.Forall₂ fun text w => ∃ v ∈ values,
      Property.HasText d.schema m.name key v text ∧ p.Reads key v w) List.Perm
        (texts.filter (· ≠ "")) (sortValues .ascending ws) :=
    ⟨ws, hws.imp fun _ _ hw => hw.2, (List.mergeSort_perm ws notAfter).symm⟩
  rw [List.forall₂_comp_perm_eq_perm_comp_forall₂] at hsorted
  obtain ⟨sorted, hperm, hsorted⟩ := hsorted
  refine ⟨_, hcolumn, ?_⟩
  rw [Property.ReadsAs, if_pos many]
  refine ⟨sorted, _, hperm.nodup_iff.mp (hdistinct.filter _), fun text => ?_, hsorted, rfl⟩
  rw [← hperm.mem_iff, List.mem_filter, decide_eq_true_iff, htexts, and_comm]
  refine and_congr_right fun _ => ⟨?_, ?_⟩
  · rintro ⟨t, ht, rfl⟩
    obtain ⟨v, hv, henc⟩ := exists_left_of_mem h ht
    exact ⟨v, hv, t, henc, rfl⟩
  · rintro ⟨v, hv, t, henc, rfl⟩
    obtain ⟨t', ht', henc'⟩ := exists_right_of_mem h hv
    rw [henc', Except.ok.injEq] at henc
    exact ⟨t', ht', congrArg Term.lexical henc⟩

end Decoder

end DocGraph
