import DocGraph.Proofs.Results.Keys
import DocGraph.Proofs.Results.Placed
import DocGraph.Proofs.Schema.Identities
import DocGraph.Proofs.Text.Percent
import Mathlib.Logic.Relation

/-!
# Documents without blanks

A store has an empty text for what is missing, and packs one where a group has no values.
The decoder leaves blanks out wherever they come up: among the texts of a packed array, among
the members of an object before and after they are decoded, among objects, and whole columns.

A value is full if nothing inside it is blank (`Json.Value.IsFull`). The values of all
columns are full (`Decoder.isFull_columnValue`), and putting a full value that is not blank
into a full document keeps it full, whatever stands in the way
(`Json.Value.isFull_insertNested`). So every document is full (`Decoder.isFull_of_decode`).
-/

namespace DocGraph

open Json (Value)
open Rdf (Term Variable)

namespace Json.Value

variable {v w : Value} {d : Dict Value} {key : String} {path : List String}

/-- Whether a value is inside another one, at some depth. -/
def IsInside (w v : Value) : Prop :=
  Relation.TransGen (fun w v => w ∈ v.parts) w v

/-- Whether nothing inside a value is blank. -/
def IsFull (v : Value) : Prop :=
  ∀ w, w.IsInside v → isBlank w = false

theorem isFull_iff : v.IsFull ↔ ∀ w ∈ v.parts, isBlank w = false ∧ w.IsFull := by
  constructor
  · intro h w hw
    exact ⟨h w (.single hw), fun u hu => h u (hu.tail hw)⟩
  · intro h w hw
    rcases (Relation.transGen_iff _ _ _).mp hw with hw | ⟨u, hwu, hu⟩
    · exact (h w hw).1
    · exact (h u hu).2 w hwu

theorem isFull_of_parts_eq_nil (h : v.parts = []) : v.IsFull := by
  rw [isFull_iff, h]
  exact nofun

theorem isFull_obj : (obj d).IsFull ↔ ∀ e ∈ d, isBlank e.2 = false ∧ e.2.IsFull := by
  rw [isFull_iff]
  exact List.forall_mem_map

/-! ## Writing into a full document -/

theorem isFull_insert (hd : (obj d).IsFull) (hv : v.IsFull) (hblank : isBlank v = false) :
    (obj (Dict.insert key v d)).IsFull := by
  rw [isFull_obj] at hd ⊢
  intro e he
  rcases Dict.mem_of_mem_insert he with rfl | he
  · exact ⟨hblank, hv⟩
  · exact hd e he

theorem isFull_child (hd : (obj d).IsFull) : (obj (Document.child key d)).IsFull := by
  unfold Document.child
  cases hget : Dict.get? key d with
  | none => exact isFull_of_parts_eq_nil rfl
  | some w =>
    have hw := (isFull_obj.mp hd _ (Dict.mem_of_get? hget)).2
    cases w with
    | obj members => exact hw
    | _ => exact isFull_of_parts_eq_nil rfl

theorem insertNested_ne_nil (hpath : path ≠ []) : Document.insertNested d path v ≠ [] := by
  match path with
  | [] => exact absurd rfl hpath
  | [_] | _ :: _ :: _ => exact Dict.insert_ne_nil

/-- Writing a value that is full and not blank into a full document keeps it full. The
objects that are made on the way hold something. -/
theorem isFull_insertNested (hd : (obj d).IsFull) (hv : v.IsFull) (hblank : isBlank v = false) :
    (obj (Document.insertNested d path v)).IsFull := by
  induction path generalizing d with
  | nil => exact hd
  | cons key rest ih =>
    cases rest with
    | nil => exact isFull_insert hd hv hblank
    | cons next rest =>
      refine isFull_insert hd (ih (isFull_child hd)) ?_
      rw [isBlank, List.isEmpty_eq_false_iff]
      exact insertNested_ne_nil (List.cons_ne_nil _ _)

end Json.Value

/-! ## The values of columns -/

open Json.Value (isFull_iff isFull_obj isFull_of_parts_eq_nil isFull_insertNested)

namespace Packing

/-- No text that is unpacked of an array is empty. -/
theorem ne_empty_of_unpackValues {path packed : String} {texts : List String}
    (h : unpackValues path packed = .ok texts) : ∀ text ∈ texts, text ≠ "" := by
  intro text htext
  unfold unpackValues at h
  split at h
  · cases h
  · obtain ⟨encoded, hencoded, hdecode⟩ := exists_left_of_mem (Outcome.mapM_eq_ok.mp h) htext
    have hne : encoded ≠ "" := by simpa using (List.mem_filter.mp hencoded).2
    unfold decodeElement at hdecode
    split at hdecode
    · next hs =>
      obtain rfl := Except.ok.inj hdecode
      exact Text.Percent.ne_empty_of_decode? hs hne
    · cases hdecode

end Packing

namespace Decoder

variable {d : Decoder} {c : DecodedColumn} {t : Term} {v : Value} {document : Document}

theorem isBlank_str {text : String} (h : text ≠ "") : isBlank (.str text) = false :=
  decide_eq_false h

theorem isBlank_number? {text : String} (h : Scalar.number? text = some v) : isBlank v = false := by
  unfold Scalar.number? at h
  dsimp only at h
  split at h <;> obtain ⟨_, -, rfl⟩ := Option.map_eq_some_iff.mp h <;> rfl

theorem ne_empty_of_timestampText {text : String}
    (h : Scalar.timestampText v = .ok (some text)) : text ≠ "" := by
  unfold Scalar.timestampText at h
  split at h
  · cases h
  · split at h
    · next t _ written hwritten =>
      obtain rfl := Option.some.inj (Except.ok.inj h)
      unfold Timestamp.text? at hwritten
      dsimp only at hwritten
      split at hwritten
      · rw [← Option.some.inj hwritten]
        simp [Timestamp.textOf]
      · cases hwritten
    · cases h

theorem isBlank_decodeText {kind : ScalarKind} {text : String} (htext : text ≠ "")
    (h : Scalar.decodeText kind text = .ok v) : isBlank v = false := by
  cases kind with
  | string =>
    obtain rfl := Except.ok.inj h
    exact isBlank_str htext
  | number =>
    obtain rfl := Except.ok.inj h
    cases hnumber : Scalar.number? text with
    | none => exact isBlank_str htext
    | some n => exact isBlank_number? hnumber
  | boolean =>
    obtain rfl := Except.ok.inj h
    cases Scalar.truth? text with
    | none => exact isBlank_str htext
    | some b => rfl
  | date =>
    obtain ⟨date, hdate, h⟩ := Outcome.bind_eq_ok.mp h
    obtain rfl := Except.ok.inj h
    cases date with
    | none => exact isBlank_str htext
    | some written => exact isBlank_str (ne_empty_of_timestampText hdate)

/-- An identifier is not empty, and neither is the URI that is kept in its place. -/
theorem isBlank_reference {model uri : String} (huri : uri ≠ "") :
    isBlank (d.reference model uri) = false := by
  refine isBlank_str ?_
  cases hid : (d.schema.model? model).bind fun m => Schema.idOfInstance? m uri with
  | none => exact huri
  | some id =>
    obtain ⟨m, -, hid⟩ := Option.bind_eq_some_iff.mp hid
    obtain ⟨rest, -, hid⟩ := Option.bind_eq_some_iff.mp hid
    dsimp only at hid
    split at hid
    · cases hid
    · next hne => exact Text.Percent.ne_empty_of_decode? hid hne

theorem ne_empty_modelNameOrUri {s : Schema} (hs : ∀ m ∈ s.models, m.name ≠ "") {uri : String}
    (huri : uri ≠ "") : s.modelNameOrUri uri ≠ "" := by
  unfold Schema.modelNameOrUri
  cases hm : s.modelOfClass? uri with
  | none => exact huri
  | some m => exact hs m (List.mem_reverse.mp (List.mem_of_find?_eq_some hm))

/-- The value of a text is blank for the empty one only. -/
theorem isBlank_textValue (hs : ∀ m ∈ d.schema.models, m.name ≠ "") {kind : ValueKind}
    {text : String} (htext : text ≠ "") (h : d.textValue kind text = .ok v) :
    isBlank v = false := by
  cases kind with
  | scalar kind => exact isBlank_decodeText htext h
  | reference model =>
    obtain rfl := Except.ok.inj h
    exact isBlank_reference htext
  | type =>
    obtain rfl := Except.ok.inj h
    exact isBlank_str (ne_empty_modelNameOrUri hs htext)
  | any =>
    obtain rfl := Except.ok.inj h
    exact isBlank_str htext

/-- Members that are blank once they are decoded are left out. -/
theorem isBlank_of_memberValues {kinds : Dict ValueKind} {o : Dict String} {m : Dict Value}
    (h : d.memberValues kinds o = .ok m) : ∀ e ∈ m, isBlank e.2 = false := by
  induction o generalizing m with
  | nil =>
    obtain rfl := Except.ok.inj h
    exact nofun
  | cons e rest ih =>
    obtain ⟨w, -, h⟩ := Outcome.bind_eq_ok.mp h
    obtain ⟨others, hothers, h⟩ := Outcome.bind_eq_ok.mp h
    split at h
    · obtain rfl := Except.ok.inj h
      exact ih hothers
    · next hblank =>
      obtain rfl := Except.ok.inj h
      exact List.forall_mem_cons.mpr ⟨Bool.eq_false_of_not_eq_true hblank, ih hothers⟩

/-- The values of all columns are full. -/
theorem isFull_columnValue (hs : ∀ m ∈ d.schema.models, m.name ≠ "")
    (h : d.columnValue c t = .ok (some v)) : v.IsFull := by
  unfold columnValue at h
  split at h
  · exact isFull_of_parts_eq_nil (parts_value h)
  · obtain ⟨texts, htexts, h⟩ := Outcome.bind_eq_ok.mp h
    obtain ⟨values, hvalues, h⟩ := Outcome.bind_eq_ok.mp h
    obtain rfl := Option.some.inj (Except.ok.inj h)
    refine isFull_iff.mpr fun w hw => ?_
    obtain ⟨text, htext, hvalue⟩ :=
      exists_left_of_mem (Outcome.mapM_eq_ok.mp hvalues) (mem_sortValues.mp hw)
    exact ⟨isBlank_textValue hs (Packing.ne_empty_of_unpackValues htexts text htext) hvalue,
      isFull_of_parts_eq_nil (parts_textValue hvalue)⟩
  · obtain ⟨unpacked, -, h⟩ := Outcome.bind_eq_ok.mp h
    obtain ⟨objects, hobjects, h⟩ := Outcome.bind_eq_ok.mp h
    -- An object that is kept has members, and each of them is a scalar that is not blank.
    have hobject : ∀ w ∈ sortValues c.direction ((objects.filter (!·.isEmpty)).map .obj),
        isBlank w = false ∧ w.IsFull := by
      intro w hw
      obtain ⟨m, hm, rfl⟩ := List.mem_map.mp (mem_sortValues.mp hw)
      obtain ⟨hm, hne⟩ := List.mem_filter.mp hm
      obtain ⟨o, -, hmembers⟩ := exists_left_of_mem (Outcome.mapM_eq_ok.mp hobjects) hm
      refine ⟨by simpa [isBlank] using hne, isFull_obj.mpr fun e he => ⟨?_, ?_⟩⟩
      · exact isBlank_of_memberValues hmembers e he
      · exact isFull_of_parts_eq_nil ((sublist_of_memberValues hmembers).2 e he)
    split at h
    · exact (hobject v (List.mem_of_head? (Except.ok.inj h))).2
    · obtain rfl := Option.some.inj (Except.ok.inj h)
      exact isFull_iff.mpr hobject

/-! ## Documents -/

theorem isFull_insertValue (hd : (Value.obj document).IsFull) (hv : v.IsFull)
    (path : List String) : (Value.obj (insertValue document path v)).IsFull := by
  unfold insertValue
  split
  · exact hd
  · next hblank => exact isFull_insertNested hd hv (Bool.eq_false_of_not_eq_true hblank)

/-- One more column keeps a document full, whether the query knows it or not. -/
theorem isFull_addBinding (hs : ∀ m ∈ d.schema.models, m.name ≠ "") {v : Variable}
    {document' : Document} (h : d.addBinding document v t = .ok document')
    (hd : (Value.obj document).IsFull) : (Value.obj document').IsFull := by
  unfold addBinding at h
  split at h
  · next c _ =>
    obtain ⟨value, hvalue, h⟩ := Outcome.bind_eq_ok.mp h
    cases value with
    | none => exact Except.ok.inj h ▸ hd
    | some w =>
      obtain rfl := Except.ok.inj h
      exact isFull_insertValue hd (isFull_columnValue hs hvalue) _
  · split at h
    · next segments _ =>
      obtain ⟨w, hw, h⟩ := Outcome.bind_eq_ok.mp h
      obtain rfl := Except.ok.inj h
      exact isFull_insertValue hd (isFull_of_parts_eq_nil (parts_decode hw)) segments
    · exact Except.ok.inj h ▸ hd

variable {definition : SchemaDefinition} {s : Schema} {model : String} {q : Spec}
  {row : List (Variable × Term)}

/-- Nothing inside a document is blank, whatever row it is decoded from. -/
theorem isFull_of_decode (hs : definition.build = .ok s) (hd : ofSpec s model q = .ok d)
    (h : d.decode row = .ok document) : (Value.obj document).IsFull := by
  have hschema : d.schema = s := by
    obtain ⟨_, -, hd⟩ := Outcome.bind_eq_ok.mp hd
    obtain ⟨_, -, hd⟩ := Outcome.bind_eq_ok.mp hd
    obtain ⟨_, -, hd⟩ := Outcome.bind_eq_ok.mp hd
    rw [← Except.ok.inj hd]
  have hnames : ∀ m ∈ d.schema.models, m.name ≠ "" := by
    rintro m hm hname
    have hidentifier := SchemaDefinition.isIdentifier_of_mem_models hs (hschema ▸ hm)
    rw [hname] at hidentifier
    cases hidentifier
  exact Outcome.of_foldlM_eq_ok (P := fun document => (Value.obj document).IsFull) h
    (isFull_of_parts_eq_nil rfl) fun _ _ _ _ hb hdocument => isFull_addBinding hnames hb hdocument

/-- The names of people, and their friends as objects. -/
def ofAcquaintances : Spec where
  fields :=
    [("friends", .objects (.ofText "friends") [("born", .ofText "born"), ("name", .ofText "name")]),
      ("name", .scalar (.ofText "?name"))]

/-- Two friends, one of them called Bob and the other one without anything. -/
def friends : List (List (String × String)) :=
  [[("born", ""), ("name", "")], [("born", ""), ("name", "Bob")]]

/-- The friends as the store packs them. -/
def packedFriends : Term :=
  .literal (.plain (Packing.packedObjects friends))

/-- Someone with these friends and without a name, and two columns that the query does not
know. -/
def blankRow : List (Variable × Term) :=
  [(⟨"mentor·name"⟩, .literal (.plain "Carol")), (⟨"mentor·born"⟩, .literal (.plain "")),
    (⟨"name"⟩, .literal (.plain "")), (⟨"friends"⟩, packedFriends)]

/-- The decoder of the names of people and of their friends. -/
def acquaintances : Decoder where
  schema := peopleSchema
  columns :=
    [("friends", ⟨"friends", .objects [("born", .scalar .date), ("name", .scalar .string)] false,
        .ascending⟩),
      ("name", ⟨"name", .value (.scalar .string), .ascending⟩)]

theorem isFull_of_decode_blankRow :
    ∃ document, people.build = .ok peopleSchema ∧
      ofSpec peopleSchema "Person" ofAcquaintances = .ok acquaintances ∧
      acquaintances.decode blankRow = .ok document ∧
      document = [("friends", .arr [.obj [("name", .str "Bob")]]),
        ("mentor", .obj [("name", .str "Carol")])] ∧
      (Value.obj document).IsFull := by
  have hspec : ofSpec peopleSchema "Person" ofAcquaintances = .ok acquaintances := rfl
  have hplain : acquaintances.decode (blankRow.take 3) =
      .ok [("mentor", .obj [("name", .str "Carol")])] := rfl
  have hunpacked : Packing.unpackObjects "friends" packedFriends.lexical =
      .ok [[("name", "Bob")]] :=
    (Packing.unpackObjects_packed "friends" (by decide)).trans rfl
  have hcolumn : acquaintances.columnValue ⟨"friends",
      .objects [("born", .scalar .date), ("name", .scalar .string)] false, .ascending⟩
      packedFriends = .ok (some (.arr [.obj [("name", .str "Bob")]])) := by
    unfold columnValue
    rw [hunpacked]
    exact congrArg (Except.ok ∘ some ∘ Value.arr) (List.mergeSort_singleton _)
  have hfriends : acquaintances.addBinding [("mentor", .obj [("name", .str "Carol")])]
      ⟨"friends"⟩ packedFriends = .ok [("friends", .arr [.obj [("name", .str "Bob")]]),
        ("mentor", .obj [("name", .str "Carol")])] :=
    addBinding_eq_ok rfl rfl hcolumn
  have hdecode : acquaintances.decode blankRow =
      .ok [("friends", .arr [.obj [("name", .str "Bob")]]),
        ("mentor", .obj [("name", .str "Carol")])] := by
    rw [← List.take_append_drop 3 blankRow, decode, List.foldlM_append, ← decode, hplain]
    simp only [blankRow, List.drop_succ_cons, List.drop_zero, List.foldlM_cons, List.foldlM_nil,
      Outcome.ok_bind, Outcome.pure_eq, hfriends]
  exact ⟨_, people_build, hspec, hdecode, rfl, isFull_of_decode people_build hspec hdecode⟩

end Decoder

end DocGraph
