import DocGraph.Proofs.Column.PackedObjects
import DocGraph.Proofs.Query.Reader
import DocGraph.Proofs.Results.Columns
import DocGraph.Proofs.Sparql.Numbers
import DocGraph.Proofs.Sparql.Tests

/-!
# Decoding every row

A packed column is bound to the text of the values that its last element has in some
solutions (`Column.Holds`). For an array these are encoded texts, and for objects the
packed texts of objects with the members of the column (`eval_objectFragments`), so the
row of a query that has been read and compiled is decoded, whatever its other columns are
bound to: but for a date beyond the calendar, and for an array of objects without
members, which is no JSON unless it is empty (`Decoder.succeeds_decode_iff`).
-/

namespace DocGraph

open Json (Value)
open Packing (membersFrom packedObject packedObjects)
open Rdf (Literal Term Variable)
open Sparql (Context Expr Solution concatenated)
open Text (Percent.encode)

/-- Whether a column may be bound to a term: a packed one to the packed values that its last
element has in some solutions, where it has a value, and others to any term. -/
def Column.Holds (t : Term) : Column → Prop
  | .packed _ _ encoded packing body => ∃ elements e, body = elements ++ [.bind encoded e] ∧
      ∃ (c : Context) (solutions : List Solution),
        t.lexical = packing.textOf (solutions.filterMap fun μ => (e.eval c μ).bind Term.text?)
  | _ => True

/-! ## The values of packed columns -/

section Values

variable {c : Context} {μ : Solution}

/-- An encoded value is the encoded form of some text, if there is one. -/
theorem eval_encoded_cases (value : Expr) (c : Context) (μ : Solution) :
    (Projection.encoded value).eval c μ = none ∨
      ∃ text, (Projection.encoded value).eval c μ =
        some (.literal (.plain (Percent.encode text))) := by
  cases hvalue : value.eval c μ with
  | none =>
    left
    simp [Projection.encoded, Expr.eval, Expr.evalAll, hvalue]
  | some t =>
    cases htext : t.text? with
    | none =>
      left
      simp [Projection.encoded, Expr.eval, Expr.evalAll, hvalue, Sparql.Store.call, htext]
    | some text =>
      right
      have hstr : (Expr.call .str [value]).eval c μ = some (.literal (.plain text)) := by
        rw [Expr.eval_str hvalue, htext, Option.map_some]
      refine ⟨text, ?_⟩
      rw [Projection.encoded,
        Expr.eval_call [.literal (.plain text)] (by rw [List.map_singleton, hstr]; rfl)]
      rfl

/-- A member of an object is the encoded form of some text, of the empty one where there is
no value. -/
theorem exists_eval_member (value : Expr) (c : Context) (μ : Solution) :
    ∃ text, (Expr.coalesce [Projection.encoded value, .string ""]).eval c μ =
      some (.literal (.plain (Percent.encode text))) := by
  rcases eval_encoded_cases value c μ with h | ⟨text, h⟩
  · refine ⟨"", ?_⟩
    rw [Expr.eval, Expr.evalAll, h]
    rfl
  · refine ⟨text, ?_⟩
    rw [Expr.eval, Expr.evalAll, h]
    rfl

/-- The fragments of an object make up the packed text of an object with its keys. -/
theorem eval_objectFragments (index : Nat) (parts : List (String × Expr)) (c : Context)
    (μ : Solution) :
    ∃ (members : List (String × String)) (texts : List String),
      members.map Prod.fst = parts.map Prod.fst ∧
      (objectFragments index parts).map (fun e => e.eval c μ) =
        (texts.map fun s => Term.literal (.plain s)).map some ∧
      String.join texts = membersFrom index members := by
  induction parts generalizing index with
  | nil => exact ⟨[], [Packing.objectEnd], rfl, by simp [objectFragments, Expr.string, Expr.eval],
      by simp [membersFrom]⟩
  | cons part rest ih =>
    obtain ⟨key, value⟩ := part
    obtain ⟨members, texts, hkeys, htexts, hjoin⟩ := ih (index + 1)
    obtain ⟨text, htext⟩ := exists_eval_member value c μ
    refine ⟨(key, text) :: members,
      Packing.memberStart index key :: Percent.encode text :: texts, ?_, ?_, ?_⟩
    · rw [List.map_cons, List.map_cons, hkeys]
    · rw [objectFragments, List.map_cons, List.map_cons, htexts, htext]
      simp [Expr.string, Expr.eval]
    · rw [membersFrom, ← hjoin, ← String.toList_inj]
      simp [String.toList_join]

/-- An object of fragments has the packed text of an object with its keys. -/
theorem exists_eval_object (parts : List (String × Expr)) (c : Context) (μ : Solution) :
    ∃ members : List (String × String), members.map Prod.fst = parts.map Prod.fst ∧
      (Expr.call .concat (objectFragments 0 parts)).eval c μ =
        some (.literal (.plain (packedObject members))) := by
  obtain ⟨members, texts, hkeys, htexts, hjoin⟩ := eval_objectFragments 0 parts c μ
  have hstrings : (texts.map fun s => Term.literal (.plain s)).mapM Term.string? = some texts := by
    clear htexts hjoin
    induction texts with
    | nil => rfl
    | cons s rest ih => simp [Term.string?, ih]
  refine ⟨members, hkeys, ?_⟩
  rw [Expr.eval_call _ htexts, Sparql.Store.call, hstrings, Option.map_some, hjoin, packedObject]

theorem exists_encodedTexts (value : Expr) (c : Context) (solutions : List Solution) :
    ∃ texts : List String,
      solutions.filterMap (fun μ => ((Projection.encoded value).eval c μ).bind Term.text?) =
        texts.map Percent.encode := by
  induction solutions with
  | nil => exact ⟨[], rfl⟩
  | cons μ rest ih =>
    obtain ⟨texts, ih⟩ := ih
    rcases eval_encoded_cases value c μ with h | ⟨text, h⟩
    · exact ⟨texts, by rw [List.filterMap_cons_none (by rw [h]; rfl), ih]⟩
    · exact ⟨text :: texts, by rw [List.filterMap_cons_some (by rw [h]; rfl), ih]; rfl⟩

theorem exists_packedObjects (parts : List (String × Expr)) (c : Context)
    (solutions : List Solution) :
    ∃ os : List (List (String × String)), (∀ o ∈ os, o.map Prod.fst = parts.map Prod.fst) ∧
      solutions.filterMap (fun μ =>
        ((Expr.call .concat (objectFragments 0 parts)).eval c μ).bind Term.text?) =
          os.map packedObject := by
  induction solutions with
  | nil => exact ⟨[], nofun, rfl⟩
  | cons μ rest ih =>
    obtain ⟨os, hos, ih⟩ := ih
    obtain ⟨members, hkeys, h⟩ := exists_eval_object parts c μ
    refine ⟨members :: os, List.forall_mem_cons.mpr ⟨hkeys, hos⟩, ?_⟩
    rw [List.filterMap_cons_some (by rw [h]; rfl), ih]
    rfl

end Values

/-! ## Objects without members -/

theorem Json.read?_braces (rest : List Char) :
    Value.read? (String.ofList ('[' :: '"' :: '\x7d' :: ',' :: '"' :: '\x7d' :: rest)) = none := by
  have hplain : ∀ c ∈ "\x7d,".toList, Json.IsPlainChar c := by
    simp [Json.IsPlainChar]
  have htokens : Json.tokens ('[' :: '"' :: '\x7d' :: ',' :: '"' :: '\x7d' :: rest) =
      .beginArray :: .str "\x7d," :: .endObject :: Json.tokensWithin (rest.length + 3) rest := by
    rw [Json.tokens]
    change .beginArray :: Json.tokensWithin (rest.length + 4 + 1)
      ('"' :: "\x7d,".toList ++ '"' :: '\x7d' :: rest) = _
    rw [Json.tokensWithin_str hplain]
    rfl
  have hevents :
      Json.events (String.ofList ('[' :: '"' :: '\x7d' :: ',' :: '"' :: '\x7d' :: rest)) =
        [.beginArray, .str "\x7d,", .fault] := by
    rw [Json.events, String.toList_ofList, htokens]
    rfl
  rw [Value.read?, Value.raw?, hevents]
  rfl

/-- Objects without members make no JSON: what stands between the quotes of two of them is
read as a text. -/
theorem Packing.unpackObjects_replicate (path : String) (n : Nat) :
    unpackObjects path (packedObjects (List.replicate (n + 1) [])) =
      .error (.invalidValue path .packedText) := by
  have hread : Value.read? (packedObjects (List.replicate (n + 1) [])) = none := by
    cases n with
    | zero => rfl
    | succ n =>
      obtain ⟨rest, hrest⟩ : ∃ rest, (packedObjects (List.replicate (n + 1 + 1) [])).toList =
          '[' :: '"' :: '\x7d' :: ',' :: '"' :: '\x7d' :: rest := by
        rw [packedObjects, List.map_replicate, List.replicate_succ, List.replicate_succ,
          String.toList_append, String.toList_append, Packing.toList_concatenated_cons]
        cases n with
        | zero => exact ⟨_, rfl⟩
        | succ n =>
          rw [List.replicate_succ, Packing.toList_concatenated_cons]
          exact ⟨_, rfl⟩
      rw [← String.ofList_toList (s := packedObjects _), hrest, Json.read?_braces]
  unfold unpackObjects
  rw [hread]
  rfl

/-! ## Dates -/

/-- Whether a text is a date whose UTC year is one of the calendar, or no date. -/
def Scalar.InCalendar (text : String) : Prop :=
  (Scalar.timestampText (.str text)).Succeeds

/-- The texts that a column reads as dates where it is bound to a term. -/
def DecodedColumn.dates (c : DecodedColumn) (t : Term) : List String :=
  match c.kind with
  | .value _ =>
    match t with
    | .literal l => if Scalar.kindOf l.datatype = .date then [l.value] else []
    | _ => []
  | .values kind =>
    if kind = .scalar .date then ((Packing.unpackValues c.field t.lexical).toOption.getD [])
    else []
  | .objects kinds _ =>
    ((Packing.unpackObjects c.field t.lexical).toOption.getD []).flatMap fun o =>
      (o.filter fun m => (Dict.get? m.1 kinds).getD .any = .scalar .date).map Prod.snd

/-- Whether the term of a column can be read: its dates are in the calendar, and an array of
objects without members is empty. -/
structure DecodedColumn.Reads (c : DecodedColumn) (t : Term) : Prop where
  dates : ∀ date ∈ c.dates t, Scalar.InCalendar date
  objects : ∀ single, c.kind = .objects [] single → t.lexical = Packing.objects.textOf []

theorem Scalar.succeeds_decodeText {kind : ScalarKind} {text : String} :
    (Scalar.decodeText kind text).Succeeds ↔ (kind = .date → InCalendar text) := by
  cases kind with
  | date =>
    rw [Scalar.decodeText, Outcome.succeeds_bind_pure]
    exact ⟨fun h _ => h, fun h => h rfl⟩
  | _ => simp [Scalar.decodeText]

namespace Decoder

variable {d : Decoder} {t : Term} {c : DecodedColumn} {column : Column}

theorem succeeds_textValue {kind : ValueKind} {text : String} :
    (d.textValue kind text).Succeeds ↔ (kind = .scalar .date → Scalar.InCalendar text) := by
  cases kind with
  | scalar kind =>
    rw [textValue, Scalar.succeeds_decodeText, ValueKind.scalar.injEq]
  | _ => simp [textValue]

theorem succeeds_memberValues {kinds : Dict ValueKind} {members : Dict String} :
    (d.memberValues kinds members).Succeeds ↔
      ∀ m ∈ members, (Dict.get? m.1 kinds).getD .any = .scalar .date →
        Scalar.InCalendar m.2 := by
  induction members with
  | nil => simp [memberValues]
  | cons m rest ih =>
    obtain ⟨key, text⟩ := m
    rw [List.forall_mem_cons, ← ih, ← succeeds_textValue (d := d), memberValues,
      Outcome.succeeds_bind]
    constructor
    · rintro ⟨w, hw, hrest⟩
      exact ⟨⟨w, hw⟩, Outcome.succeeds_bind_pure.mp hrest⟩
    · rintro ⟨⟨w, hw⟩, hrest⟩
      exact ⟨w, hw, Outcome.succeeds_bind_pure.mpr hrest⟩

/-- A single value is read whatever its term is, but for a date beyond the calendar. -/
theorem succeeds_value {kind : ValueKind} :
    (d.value kind t).Succeeds ↔
      ∀ l, t = .literal l → Scalar.kindOf l.datatype = .date → Scalar.InCalendar l.value := by
  have hdecode : (do
      let value ← d.schema.decode t
      return if isEmptyLiteral t then none else some value).Succeeds ↔
        ∀ l, t = .literal l → Scalar.kindOf l.datatype = .date → Scalar.InCalendar l.value := by
    rw [Outcome.succeeds_bind_pure]
    cases t with
    | literal l =>
      rw [Schema.decode, Scalar.decode, Scalar.succeeds_decodeText]
      exact ⟨fun h l' hl => Term.literal.inj hl ▸ h, fun h => h l rfl⟩
    | _ => simp [Schema.decode]
  unfold value
  split
  · simp
  · exact hdecode

/-- The packed texts of an array are read, but for dates beyond the calendar. -/
theorem succeeds_values {field : String} {kind : ValueKind} {direction : Direction}
    {texts : List String} (ht : Packing.unpackValues field t.lexical = .ok texts) :
    (d.columnValue ⟨field, .values kind, direction⟩ t).Succeeds ↔
      (⟨field, .values kind, direction⟩ : DecodedColumn).Reads t := by
  have hdates : (⟨field, .values kind, direction⟩ : DecodedColumn).dates t =
      if kind = .scalar .date then texts else [] := by
    simp only [DecodedColumn.dates, ht]
    rfl
  have hvalue : d.columnValue ⟨field, .values kind, direction⟩ t =
      (texts.mapM (d.textValue kind) >>= fun values =>
        pure (some (.arr (sortValues direction values)))) := by
    simp only [columnValue, ht, Outcome.ok_bind]
  rw [hvalue, Outcome.succeeds_bind_pure, Outcome.succeeds_mapM]
  simp only [succeeds_textValue]
  constructor
  · intro h
    refine ⟨fun date hdate => ?_, nofun⟩
    rw [hdates] at hdate
    split at hdate
    · next hkind => exact h date hdate hkind
    · cases hdate
  · intro h text htext hkind
    refine h.dates text ?_
    rwa [hdates, if_pos hkind]

/-- The packed objects of an array are read, but for dates beyond the calendar. -/
theorem succeeds_objects {field : String} {kinds : Dict ValueKind} {single : Bool}
    {direction : Direction} {os : List (Dict String)}
    (ht : Packing.unpackObjects field t.lexical = .ok os) :
    (d.columnValue ⟨field, .objects kinds single, direction⟩ t).Succeeds ↔
      ∀ date ∈ (⟨field, .objects kinds single, direction⟩ : DecodedColumn).dates t,
        Scalar.InCalendar date := by
  have hdates : (⟨field, .objects kinds single, direction⟩ : DecodedColumn).dates t =
      os.flatMap fun o =>
        (o.filter fun m => (Dict.get? m.1 kinds).getD .any = .scalar .date).map Prod.snd := by
    simp only [DecodedColumn.dates, ht]
    rfl
  have hvalue : (d.columnValue ⟨field, .objects kinds single, direction⟩ t).Succeeds ↔
      (os.mapM (d.memberValues kinds)).Succeeds := by
    simp only [columnValue, ht, Outcome.ok_bind]
    exact Outcome.succeeds_bind_pure
  rw [hvalue, Outcome.succeeds_mapM, hdates]
  simp only [succeeds_memberValues, List.mem_flatMap, List.mem_map, List.mem_filter,
    decide_eq_true_eq]
  constructor
  · rintro h date ⟨o, ho, m, ⟨hm, hkind⟩, rfl⟩
    exact h o ho m hm hkind
  · intro h o ho m hm hkind
    exact h m.2 ⟨o, ho, m, ⟨hm, hkind⟩, rfl⟩

/-- Packed objects that all have the members of their column are read, but for dates beyond
the calendar and objects without members. -/
theorem succeeds_packedObjects {field : String} {kinds : Dict ValueKind} {single : Bool}
    {direction : Direction} {os : List (List (String × String))}
    (ht : t.lexical = packedObjects os) (hos : ∀ o ∈ os, o.map Prod.fst = Dict.keys kinds) :
    (d.columnValue ⟨field, .objects kinds single, direction⟩ t).Succeeds ↔
      (⟨field, .objects kinds single, direction⟩ : DecodedColumn).Reads t := by
  by_cases hempty : kinds = [] ∧ os ≠ []
  · obtain ⟨rfl, hne⟩ := hempty
    obtain ⟨n, hn⟩ := Nat.exists_eq_succ_of_ne_zero (mt List.length_eq_zero_iff.mp hne)
    have hreplicate : os = List.replicate (n + 1) [] :=
      List.eq_replicate_iff.mpr ⟨hn, fun o ho => List.map_eq_nil_iff.mp (hos o ho)⟩
    have hunpack := Packing.unpackObjects_replicate field n
    rw [← hreplicate, ← ht] at hunpack
    constructor
    · intro h
      simp [columnValue, hunpack] at h
    · intro h
      rw [h.objects single rfl] at hunpack
      have hnone : Packing.unpackObjects field (Packing.objects.textOf []) = .ok [] := rfl
      rw [hnone] at hunpack
      cases hunpack
  · have hmembers : ∀ o ∈ os, o ≠ [] := by
      rintro o ho rfl
      exact hempty ⟨List.map_eq_nil_iff.mp (hos [] ho).symm, List.ne_nil_of_mem ho⟩
    have hunpack := Packing.unpackObjects_packed field hmembers
    rw [← ht] at hunpack
    rw [succeeds_objects hunpack]
    refine ⟨fun h => ⟨h, fun single' hkind => ?_⟩, fun h => h.dates⟩
    obtain rfl : kinds = [] := (ColumnKind.objects.inj hkind).1
    obtain rfl : os = [] := by
      by_contra hne
      exact hempty ⟨rfl, hne⟩
    exact ht

/-- A column that is bound to what it may hold is read, but for dates beyond the calendar and
objects without members. -/
theorem succeeds_columnValue (hfits : c.kind.Fits column) (hholds : column.Holds t) :
    (d.columnValue c t).Succeeds ↔ c.Reads t := by
  obtain ⟨field, kind, direction⟩ := c
  cases kind with
  | value kind =>
    have hdates : (∀ date ∈ (⟨field, .value kind, direction⟩ : DecodedColumn).dates t,
        Scalar.InCalendar date) ↔
          ∀ l, t = .literal l → Scalar.kindOf l.datatype = .date → Scalar.InCalendar l.value := by
      cases t with
      | literal l => simp [DecodedColumn.dates]
      | _ => simp [DecodedColumn.dates]
    exact succeeds_value.trans (hdates.symm.trans ⟨fun h => ⟨h, nofun⟩, fun h => h.dates⟩)
  | values kind =>
    cases column with
    | packed output raw encoded packing body =>
      cases packing with
      | objects => exact hfits.elim
      | values =>
        obtain ⟨elements, value, rfl⟩ := hfits
        obtain ⟨elements', e, hbody, c, solutions, ht⟩ := hholds
        obtain ⟨-, hlast⟩ := List.append_inj' hbody rfl
        obtain ⟨-, rfl⟩ := Element.bind.inj (List.cons.inj hlast).1
        obtain ⟨texts, htexts⟩ := exists_encodedTexts value c solutions
        rw [htexts] at ht
        exact succeeds_values (by rw [ht]; exact Packing.unpackValues_packed field texts)
    | _ => exact hfits.elim
  | objects kinds single =>
    cases column with
    | packed output raw encoded packing body =>
      cases packing with
      | values => exact hfits.elim
      | objects =>
        obtain ⟨elements, parts, hkeys, -, rfl⟩ := hfits
        obtain ⟨elements', e, hbody, c, solutions, ht⟩ := hholds
        obtain ⟨-, hlast⟩ := List.append_inj' hbody rfl
        obtain ⟨-, rfl⟩ := Element.bind.inj (List.cons.inj hlast).1
        obtain ⟨os, hos, htexts⟩ := exists_packedObjects parts c solutions
        rw [htexts] at ht
        refine succeeds_packedObjects ht fun o ho => ?_
        rw [hos o ho, hkeys]
    | _ => exact hfits.elim

/-! ## Rows -/

theorem succeeds_addBinding {document : Document} {v : Variable}
    (hc : Dict.get? v.name d.columns = some c) :
    (d.addBinding document v t).Succeeds ↔ (d.columnValue c t).Succeeds := by
  unfold addBinding
  rw [hc]
  dsimp only
  cases d.columnValue c t with
  | error e => simp
  | ok out => cases out <;> simp

/-- A row of a query that has been read and compiled is decoded, whatever solutions its packed
columns are made of and whatever terms its other columns are bound to, if and only if its
dates are in the calendar and its objects have members. -/
theorem succeeds_decode_iff {s : Schema} {model : String} {v : Value} {q : Spec}
    {options : CompileOptions} {sel : Selection} (hread : Spec.ofValue v.canonical = .ok q)
    (hcompile : q.compile s options model = .ok sel) :
    ∃ d, ofSpec s model q = .ok d ∧
      ∀ row : List (Variable × Term),
        (∀ b ∈ row, ∃ column ∈ sel.columns, column.carrier = b.1 ∧ column.Holds b.2) →
        ((d.decode row).Succeeds ↔
          ∀ b ∈ row, ∀ c, Dict.get? b.1.name d.columns = some c → c.Reads b.2) := by
  obtain ⟨entries, hd, -, hdistinct, -, hknown⟩ :=
    exists_ofSpec (Spec.isOrdered_of_ofValue ⟨v, rfl⟩ hread) hcompile
  refine ⟨_, hd, fun row hrow => Outcome.succeeds_foldlM (fun b hb document => ?_) []⟩
  obtain ⟨column, hcolumn, hcarrier, hholds⟩ := hrow b hb
  obtain ⟨name, -, -, c, hc, -, hfits⟩ := exists_left_of_mem hknown hcolumn
  rw [hcarrier] at hc
  have hget := Dict.get?_ofEntries hdistinct hc
  rw [succeeds_addBinding hget, succeeds_columnValue hfits hholds]
  exact ⟨fun h c' hc' => Option.some.inj (hget.symm.trans hc') ▸ h, fun h => h c hget⟩

/-- The query of the friends of people as objects with some members. -/
def friendsQuery (members : List (String × Value)) : Value :=
  .obj [("fields", .obj [("friends",
    .obj [("$fields", .obj members), ("$property", .str "friends")])])]

/-- A row whose column of friends is bound to a text. -/
def friendsRow (text : String) : List (Variable × Term) :=
  [(⟨"friends"⟩, .literal (.plain text))]

/-- A friend who was born on a day. -/
def bornOn (date : String) : Solution :=
  Solution.empty.set ⟨"_p·friends·born"⟩ (.literal (.typed date (Rdf.xsd "date")))

theorem succeeds_decode_friends :
    ∃ q sel d, Spec.ofValue (friendsQuery [("born", .str "born")]).canonical = .ok q ∧
      q.compile peopleSchema {} "Person" = .ok sel ∧ ofSpec peopleSchema "Person" q = .ok d ∧
      (∀ b ∈ friendsRow "[\x7b\"born\":\"1999-12-31\"\x7d]",
        ∃ column ∈ sel.columns, column.carrier = b.1 ∧ column.Holds b.2) ∧
      ((d.decode (friendsRow "[\x7b\"born\":\"1999-12-31\"\x7d]")).Succeeds ↔
        ∀ b ∈ friendsRow "[\x7b\"born\":\"1999-12-31\"\x7d]", ∀ c,
          Dict.get? b.1.name d.columns = some c → c.Reads b.2) := by
  obtain ⟨q, sel, hread, hcompile, hrow⟩ :
      ∃ q sel, Spec.ofValue (friendsQuery [("born", .str "born")]).canonical = .ok q ∧
        q.compile peopleSchema {} "Person" = .ok sel ∧
        ∀ b ∈ friendsRow "[\x7b\"born\":\"1999-12-31\"\x7d]",
          ∃ column ∈ sel.columns, column.carrier = b.1 ∧ column.Holds b.2 := by
    refine ⟨_, _, rfl, rfl, fun b hb => ?_⟩
    obtain rfl := List.mem_singleton.mp hb
    exact ⟨_, List.mem_cons_self, rfl, _, _, rfl, { store := .numeric, data := ∅ },
      [bornOn "1999-12-31"], rfl⟩
  obtain ⟨d, hd, h⟩ := succeeds_decode_iff hread hcompile
  exact ⟨q, sel, d, hread, hcompile, hd, hrow, h _ hrow⟩

/-- The query of the friends of people as objects without members is read and compiled, but a
person with a friend is not decoded. -/
theorem not_succeeds_decode_friends :
    ∃ q sel d, Spec.ofValue (friendsQuery []).canonical = .ok q ∧
      q.compile peopleSchema {} "Person" = .ok sel ∧ ofSpec peopleSchema "Person" q = .ok d ∧
      (∀ b ∈ friendsRow "[\"\x7d]",
        ∃ column ∈ sel.columns, column.carrier = b.1 ∧ column.Holds b.2) ∧
      d.decode (friendsRow "[\"\x7d]") = .error (.invalidValue "friends" .packedText) := by
  refine ⟨_, _, _, rfl, rfl, rfl, ?_, rfl⟩
  intro b hb
  obtain rfl := List.mem_singleton.mp hb
  exact ⟨_, List.mem_cons_self, rfl, _, _, rfl, { store := .numeric, data := ∅ },
    [.empty], rfl⟩

end Decoder

end DocGraph
