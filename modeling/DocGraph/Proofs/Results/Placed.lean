import DocGraph.Proofs.Document
import DocGraph.Proofs.Results.Rows

/-!
# The columns of a row in its document

The document of a row has the values of its columns put at the places that their dotted
names tell (`Decoder.decode_eq_ok`), but for blank ones. A name may go on from another one,
and then only one of the two columns may stay whole: all columns are in the document just
when their values agree, and just then the order of the row does not count
(`Decoder.decode_placed`).
-/

namespace DocGraph

open Json (Value)
open Json.Value (Consistent Placed at? putAll)
open Rdf (Term Variable)

/-! ## The objects in the values of columns -/

namespace Json.Value

theorem isCanonical_of_mem_canonicalItems {items : List Value} {v : Value}
    (h : v ∈ canonicalItems items) : v.IsCanonical := by
  induction items with
  | nil => cases h
  | cons w rest ih =>
    rw [canonicalItems] at h
    rcases List.mem_cons.mp h with rfl | h
    · exact ⟨w, rfl⟩
    · exact ih h

/-- The items of arrays in canonical form are in canonical form. -/
theorem IsCanonical.items {items : List Value} (h : (Value.arr items).IsCanonical) :
    ∀ v ∈ items, v.IsCanonical := by
  obtain ⟨w, hw⟩ := h
  cases w with
  | arr items' =>
    obtain rfl := Value.arr.inj hw
    exact fun v hv => isCanonical_of_mem_canonicalItems hv
  | _ => cases hw

end Json.Value

theorem exists_of_mapM_eq_some {α β : Type} {f : α → Option β} {as : List α} {bs : List β}
    (h : as.mapM f = some bs) {b : β} (hb : b ∈ bs) : ∃ a ∈ as, f a = some b := by
  induction as generalizing bs with
  | nil =>
    obtain rfl := Option.some.inj h
    cases hb
  | cons a as ih =>
    rw [List.mapM_cons] at h
    obtain ⟨b', hb', h⟩ := Option.bind_eq_some_iff.mp h
    obtain ⟨bs', hbs, h⟩ := Option.bind_eq_some_iff.mp h
    obtain rfl := Option.some.inj h
    rcases List.mem_cons.mp hb with rfl | hb
    · exact ⟨a, List.mem_cons_self, hb'⟩
    · obtain ⟨a', ha', h⟩ := ih hbs hb
      exact ⟨a', List.mem_cons_of_mem _ ha', h⟩

namespace Packing

/-- The members that are left of a packed object keep their order. -/
theorem sublist_of_unpackMembers {path : String} {members : List (String × Value)}
    {o : Dict String} (h : unpackMembers path members = .ok o) :
    (Dict.keys o).Sublist (Dict.keys members) := by
  induction members generalizing o with
  | nil =>
    obtain rfl := Except.ok.inj h
    exact .slnil
  | cons m rest ih =>
    obtain ⟨key, v⟩ := m
    cases v with
    | str encoded =>
      obtain ⟨value, -, h⟩ := Outcome.bind_eq_ok.mp h
      obtain ⟨others, hothers, h⟩ := Outcome.bind_eq_ok.mp h
      split at h
      · obtain rfl := Except.ok.inj h
        exact (ih hothers).cons _
      · obtain rfl := Except.ok.inj h
        exact (ih hothers).cons_cons _
    | _ => cases h

/-- The members of unpacked objects are in order. -/
theorem isSorted_of_unpackObjects {path packed : String} {os : List (Dict String)}
    (h : unpackObjects path packed = .ok os) : ∀ o ∈ os, Dict.IsSorted o := by
  intro o ho
  unfold unpackObjects at h
  split at h
  · cases h
  · next elements hread =>
    obtain ⟨unpacked, hunpacked, h⟩ := Outcome.bind_eq_ok.mp h
    obtain rfl := Except.ok.inj h
    obtain ⟨members, hmembers, ho⟩ :=
      exists_left_of_mem (Outcome.mapM_eq_ok.mp hunpacked) (List.mem_of_mem_filter ho)
    obtain ⟨items, hitems, hread⟩ := Option.bind_eq_some_iff.mp hread
    obtain ⟨v, hv, hitems⟩ := Option.bind_eq_some_iff.mp hitems
    obtain ⟨item, hitem, hobj⟩ := exists_of_mapM_eq_some hread hmembers
    obtain ⟨raw, -, rfl⟩ := Option.map_eq_some_iff.mp hv
    have hcanonical : (Value.obj members).IsCanonical := by
      cases hraw : raw.canonical with
      | arr items' =>
        rw [hraw] at hitems
        obtain rfl := Option.some.inj hitems
        cases item with
        | obj members' =>
          obtain rfl := Option.some.inj hobj
          exact Json.Value.IsCanonical.items ⟨raw, hraw⟩ _ hitem
        | _ => cases hobj
      | _ =>
        rw [hraw] at hitems
        cases hitems
    exact hcanonical.members.1.sublist (sublist_of_unpackMembers ho)

end Packing

namespace Decoder

variable {d : Decoder} {c : DecodedColumn} {t : Term} {v : Value}

theorem parts_number? {text : String} (h : Scalar.number? text = some v) : v.parts = [] := by
  unfold Scalar.number? at h
  dsimp only at h
  split at h
  · obtain ⟨n, -, rfl⟩ := Option.map_eq_some_iff.mp h
    rfl
  · obtain ⟨x, -, rfl⟩ := Option.map_eq_some_iff.mp h
    rfl

/-- The value of a text is no array and no object. -/
theorem parts_decodeText {kind : ScalarKind} {text : String}
    (h : Scalar.decodeText kind text = .ok v) : v.parts = [] := by
  cases kind with
  | string =>
    obtain rfl := Except.ok.inj h
    rfl
  | number =>
    obtain rfl := Except.ok.inj h
    cases hnumber : Scalar.number? text with
    | none => rfl
    | some n => exact parts_number? hnumber
  | boolean =>
    obtain rfl := Except.ok.inj h
    cases Scalar.truth? text <;> rfl
  | date =>
    obtain ⟨date, -, h⟩ := Outcome.bind_eq_ok.mp h
    obtain rfl := Except.ok.inj h
    rfl

theorem parts_decode {s : Schema} (h : s.decode t = .ok v) : v.parts = [] := by
  cases t with
  | literal l => exact parts_decodeText h
  | iri i =>
    obtain rfl := Except.ok.inj h
    rfl
  | blank name =>
    obtain rfl := Except.ok.inj h
    rfl

theorem parts_value {kind : ValueKind} (h : d.value kind t = .ok (some v)) : v.parts = [] := by
  unfold value at h
  split at h
  · obtain rfl := Option.some.inj (Except.ok.inj h)
    rfl
  · obtain ⟨w, hw, h⟩ := Outcome.bind_eq_ok.mp h
    split at h
    · cases Except.ok.inj h
    · obtain rfl := Option.some.inj (Except.ok.inj h)
      exact parts_decode hw

theorem parts_textValue {kind : ValueKind} {text : String}
    (h : d.textValue kind text = .ok v) : v.parts = [] := by
  cases kind with
  | scalar kind => exact parts_decodeText h
  | reference model | type | any =>
    obtain rfl := Except.ok.inj h
    rfl

/-- The members of an object keep their order, and are no arrays or objects themselves. -/
theorem sublist_of_memberValues {kinds : Dict ValueKind} {o : Dict String} {m : Dict Value}
    (h : d.memberValues kinds o = .ok m) :
    (Dict.keys m).Sublist (Dict.keys o) ∧ ∀ e ∈ m, e.2.parts = [] := by
  induction o generalizing m with
  | nil =>
    obtain rfl := Except.ok.inj h
    exact ⟨.slnil, nofun⟩
  | cons e rest ih =>
    obtain ⟨w, hw, h⟩ := Outcome.bind_eq_ok.mp h
    obtain ⟨others, hothers, h⟩ := Outcome.bind_eq_ok.mp h
    obtain ⟨hsublist, hmembers⟩ := ih hothers
    split at h
    · obtain rfl := Except.ok.inj h
      exact ⟨hsublist.cons _, hmembers⟩
    · obtain rfl := Except.ok.inj h
      exact ⟨hsublist.cons_cons _, List.forall_mem_cons.mpr ⟨parts_textValue hw, hmembers⟩⟩

/-- An object in order whose members are no objects is ordered. -/
theorem isOrdered_obj {m : Dict Value} (hm : Dict.IsSorted m)
    (hmembers : ∀ e ∈ m, e.2.parts = []) : (Value.obj m).IsOrdered := by
  intro path o ho
  cases path with
  | nil =>
    obtain rfl := Value.obj.inj (Option.some.inj ho)
    exact hm
  | cons key rest =>
    obtain ⟨w, hw, ho⟩ := Option.bind_eq_some_iff.mp ho
    have hleaf := Value.members_of_parts_eq_nil (hmembers _ (Dict.mem_of_get? hw))
    exact Value.isOrdered_of_members_eq_nil hleaf rest o ho

theorem mem_sortValues {direction : Direction} {values : List Value} :
    v ∈ sortValues direction values ↔ v ∈ values := by
  cases direction
  · exact List.mem_mergeSort
  · exact List.mem_reverse.trans List.mem_mergeSort

/-- The members of all objects in the value of a column are in order. -/
theorem isOrdered_columnValue (h : d.columnValue c t = .ok (some v)) : v.IsOrdered := by
  unfold columnValue at h
  split at h
  · exact Value.isOrdered_of_members_eq_nil (Value.members_of_parts_eq_nil (parts_value h))
  · obtain ⟨texts, -, h⟩ := Outcome.bind_eq_ok.mp h
    obtain ⟨values, -, h⟩ := Outcome.bind_eq_ok.mp h
    obtain rfl := Option.some.inj (Except.ok.inj h)
    exact Value.isOrdered_of_members_eq_nil rfl
  · obtain ⟨unpacked, hunpacked, h⟩ := Outcome.bind_eq_ok.mp h
    obtain ⟨objects, hobjects, h⟩ := Outcome.bind_eq_ok.mp h
    split at h
    · have hmem := mem_sortValues.mp (List.mem_of_head? (Except.ok.inj h))
      obtain ⟨m, hm, rfl⟩ := List.mem_map.mp hmem
      obtain ⟨o, ho, hvalues⟩ :=
        exists_left_of_mem (Outcome.mapM_eq_ok.mp hobjects) (List.mem_of_mem_filter hm)
      obtain ⟨hsublist, hmembers⟩ := sublist_of_memberValues hvalues
      exact isOrdered_obj ((Packing.isSorted_of_unpackObjects hunpacked o ho).sublist hsublist)
        hmembers
    · obtain rfl := Option.some.inj (Except.ok.inj h)
      exact Value.isOrdered_of_members_eq_nil rfl

/-! ## The document of a row -/

/-- The value of a binding at the place of its column, unless it is blank. -/
def placement? (d : Decoder) (b : Variable × Term) : Option Placed :=
  (Dict.get? b.1.name d.columns).bind fun c =>
    match d.columnValue c b.2 with
    | .ok (some v) => if isBlank v then none else some (Text.split '.' c.field, v)
    | _ => none

/-- The values of the columns of a row at their places. -/
def placements (d : Decoder) (row : List (Variable × Term)) : List Placed :=
  row.filterMap d.placement?

theorem putAll_placements_cons (b : Variable × Term) (row : List (Variable × Term)) (o : Value) :
    putAll (d.placements (b :: row)) o =
      putAll (d.placements row) (putAll (d.placement? b).toList o) := by
  rw [placements, List.filterMap_cons]
  cases d.placement? b <;> rfl

/-- A value that is placed is that of a column, under the name of its field. -/
theorem placement?_eq_some {b : Variable × Term} {e : Placed} (h : d.placement? b = some e) :
    ∃ c, Dict.get? b.1.name d.columns = some c ∧ e.1 = Text.split '.' c.field ∧
      d.columnValue c b.2 = .ok (some e.2) := by
  obtain ⟨c, hc, h⟩ := Option.bind_eq_some_iff.mp h
  split at h
  · next v hv =>
    split at h
    · cases h
    · obtain rfl := Option.some.inj h
      exact ⟨c, hc, rfl, hv⟩
  · cases h

theorem isOrdered_of_mem_placements {row : List (Variable × Term)} {e : Placed}
    (he : e ∈ d.placements row) : e.2.IsOrdered := by
  obtain ⟨b, -, hb⟩ := List.mem_filterMap.mp he
  obtain ⟨c, -, -, hvalue⟩ := placement?_eq_some hb
  exact isOrdered_columnValue hvalue

/-- One more column of a document: its value has been put at its place. -/
theorem addBinding_eq_ok_iff {document document' : Document} {v : Variable}
    (hc : Dict.get? v.name d.columns = some c) :
    d.addBinding document v t = .ok document' ↔ (d.columnValue c t).Succeeds ∧
      putAll (d.placement? (v, t)).toList (.obj document) = .obj document' := by
  have hplace : d.placement? (v, t) = match d.columnValue c t with
      | .ok (some w) => if isBlank w then none else some (Text.split '.' c.field, w)
      | _ => none := by
    rw [placement?, hc, Option.bind_some]
  unfold addBinding
  rw [hplace, hc]
  dsimp only
  cases d.columnValue c t with
  | error e => simp
  | ok out =>
    cases out with
    | none =>
      simp [putAll]
    | some w =>
      have hput := Value.put_eq_insertNested (Text.split_ne_nil '.' c.field) w document
      by_cases hblank : isBlank w = true <;> simp [insertValue, hblank, putAll, hput]

/-- The document of a row has the values of its columns put at their places. -/
theorem addBindings_eq_ok {row : List (Variable × Term)} {document document' : Document}
    (hknown : ∀ b ∈ row, ∃ c, Dict.get? b.1.name d.columns = some c) :
    row.foldlM (fun document (v, t) => d.addBinding document v t) document = .ok document' ↔
      (∀ b ∈ row, ∀ c, Dict.get? b.1.name d.columns = some c → (d.columnValue c b.2).Succeeds) ∧
        putAll (d.placements row) (.obj document) = .obj document' := by
  induction row generalizing document with
  | nil =>
    show Except.ok document = Except.ok document' ↔ _ ∧ Value.obj document = .obj document'
    simp
  | cons b row ih =>
    obtain ⟨v, t⟩ := b
    rw [List.forall_mem_cons] at hknown
    obtain ⟨⟨c, hc⟩, hknown⟩ := hknown
    have hsucceeds : (∀ c, Dict.get? v.name d.columns = some c → (d.columnValue c t).Succeeds) ↔
        (d.columnValue c t).Succeeds :=
      ⟨fun h => h c hc, fun h c' hc' => Option.some.inj (hc.symm.trans hc') ▸ h⟩
    rw [List.foldlM_cons, Outcome.bind_eq_ok, putAll_placements_cons, List.forall_mem_cons]
    dsimp only
    rw [hsucceeds]
    constructor
    · rintro ⟨next, hnext, h⟩
      obtain ⟨hvalue, hput⟩ := (addBinding_eq_ok_iff hc).mp hnext
      obtain ⟨hvalues, hputs⟩ := (ih hknown).mp h
      exact ⟨⟨hvalue, hvalues⟩, by rw [hput, hputs]⟩
    · rintro ⟨⟨hvalue, hvalues⟩, hputs⟩
      obtain ⟨next, hnext⟩ : (d.addBinding document v t).Succeeds :=
        (succeeds_addBinding hc).mpr hvalue
      refine ⟨next, hnext, (ih hknown).mpr ⟨hvalues, ?_⟩⟩
      rw [← ((addBinding_eq_ok_iff hc).mp hnext).2, hputs]

theorem decode_eq_ok {row : List (Variable × Term)} {document : Document}
    (hknown : ∀ b ∈ row, ∃ c, Dict.get? b.1.name d.columns = some c) :
    d.decode row = .ok document ↔
      (∀ b ∈ row, ∀ c, Dict.get? b.1.name d.columns = some c → (d.columnValue c b.2).Succeeds) ∧
        putAll (d.placements row) (.obj []) = .obj document :=
  addBindings_eq_ok hknown

/-- What is kept of a list comes in every order if the list does. -/
theorem exists_perm_filterMap {α β : Type} {f : α → Option β} {as : List α} {bs : List β}
    (h : bs.Perm (as.filterMap f)) :
    ∃ as' : List α, as'.Perm as ∧ as'.filterMap f = bs := by
  induction bs generalizing as with
  | nil => exact ⟨as, .refl _, h.symm.eq_nil⟩
  | cons b bs ih =>
    obtain ⟨a, ha, hab⟩ := List.mem_filterMap.mp (h.subset List.mem_cons_self)
    obtain ⟨l, l', rfl⟩ := List.append_of_mem ha
    have hrest : (b :: bs).Perm (b :: (l ++ l').filterMap f) := by
      rw [← List.filterMap_cons_some hab]
      exact h.trans (List.perm_middle.filterMap f)
    obtain ⟨as', hperm, rfl⟩ := ih hrest.cons_inv
    exact ⟨a :: as', (hperm.cons a).trans List.perm_middle.symm, List.filterMap_cons_some hab⟩

/-- Whether a binding is that of a column, whose field is one of some names. -/
def Names (d : Decoder) (names : List String) (b : Variable × Term) : Prop :=
  ∃ name ∈ names, outputVariable name = .ok b.1 ∧
    ∃ c, Dict.get? b.1.name d.columns = some c ∧ c.field = name

variable {row : List (Variable × Term)} {names : List String} {document : Document}

theorem Names.known {b : Variable × Term} (h : d.Names names b) :
    ∃ c, Dict.get? b.1.name d.columns = some c := by
  obtain ⟨_, _, _, c, hc, _⟩ := h
  exact ⟨c, hc⟩

/-- A row is decoded to one document in every order if and only if its values are
consistent. -/
theorem consistent_iff_decode_perm (hknown : ∀ b ∈ row, ∃ c, Dict.get? b.1.name d.columns = some c)
    (h : d.decode row = .ok document) :
    Consistent (d.placements row) ↔ ∀ row', row'.Perm row → d.decode row' = .ok document := by
  obtain ⟨hvalues, hputs⟩ := (decode_eq_ok hknown).mp h
  rw [Value.consistent_iff_perm (fun _ => isOrdered_of_mem_placements) (.obj [])]
  have hdecode {row' : List (Variable × Term)} (hperm : row'.Perm row) :
      d.decode row' = .ok document ↔
        putAll (d.placements row') (.obj []) = putAll (d.placements row) (.obj []) := by
    rw [decode_eq_ok fun b hb => hknown b (hperm.subset hb), hputs]
    exact and_iff_right fun b hb => hvalues b (hperm.subset hb)
  constructor
  · intro h row' hperm
    exact (hdecode hperm).mpr (h _ (hperm.filterMap _))
  · intro h es' hperm
    obtain ⟨row', hrow', rfl⟩ := exists_perm_filterMap hperm
    exact (hdecode hrow').mp (h row' hrow')

/-- The values of a row are consistent if no name goes on from another one. -/
theorem consistent_placements (hnamed : ∀ b ∈ row, d.Names names b)
    (hdistinct : (row.map Prod.fst).Nodup)
    (hnames : ∀ name ∈ names, ∀ name' ∈ names,
      Text.split '.' name <+: Text.split '.' name' → name = name') :
    Consistent (d.placements row) := by
  intro e he e' he' rest hrest
  obtain ⟨b, hb, hplace⟩ := List.mem_filterMap.mp he
  obtain ⟨b', hb', hplace'⟩ := List.mem_filterMap.mp he'
  obtain ⟨name, hname, hvariable, c, hc, hfield⟩ := hnamed b hb
  obtain ⟨name', hname', hvariable', c', hc', hfield'⟩ := hnamed b' hb'
  obtain ⟨_, hcol, hpath, -⟩ := placement?_eq_some hplace
  obtain ⟨_, hcol', hpath', -⟩ := placement?_eq_some hplace'
  obtain rfl := Option.some.inj (hc.symm.trans hcol)
  obtain rfl := Option.some.inj (hc'.symm.trans hcol')
  rw [hpath, hpath', hfield, hfield'] at hrest
  -- The two names are one, and so are the bindings.
  obtain rfl := hnames name hname name' hname' ⟨rest, hrest.symm⟩
  have hsame : b.1 = b'.1 := Except.ok.inj (hvariable.symm.trans hvariable')
  obtain rfl := List.inj_on_of_nodup_map hdistinct hb hb' hsame
  obtain rfl := List.append_right_eq_self.mp hrest.symm
  obtain rfl := Option.some.inj (hplace.symm.trans hplace')
  rfl

variable {s : Schema} {model : String} {q : Spec} {options : CompileOptions} {sel : Selection}

/-- The decoder of a query knows the bindings of its columns. -/
theorem names_of_compile (hq : q.IsOrdered) (hcompile : q.compile s options model = .ok sel) :
    ∃ d, ofSpec s model q = .ok d ∧
      ∀ b : Variable × Term, b.1 ∈ sel.columns.map Column.carrier → d.Names q.columnNames b := by
  obtain ⟨d, hd, -, -, hcolumns⟩ := ofSpec_of_compile hq hcompile
  refine ⟨d, hd, fun b hb => ?_⟩
  obtain ⟨column, hcolumn, hcarrier⟩ := List.mem_map.mp hb
  obtain ⟨name, hname, hvariable, c, hc, hfield, -⟩ := exists_left_of_mem hcolumns hcolumn
  rw [hcarrier] at hvariable hc
  exact ⟨name, hname, hvariable, c, hc, hfield⟩

/-- What the document of a row has of the columns of a query. -/
structure IsPlacedBy (d : Decoder) (q : Spec) (row : List (Variable × Term))
    (document : Document) : Prop where
  /-- Every binding is one of a column that the query names. -/
  named : ∀ b ∈ row, d.Names q.columnNames b
  /-- All columns are at their places if their values agree, and only then. -/
  whole : Consistent (d.placements row) ↔
    ∀ e ∈ d.placements row, at? e.1 (.obj document) = some e.2
  /-- Nothing but columns, and objects on the way to them, is in the document. -/
  nothing_else : ∀ path v, path ≠ [] → at? path (.obj document) = some v →
    ∃ e ∈ d.placements row, e.Gives path v
  /-- The order of the columns does not count if their values agree, and only then. -/
  unordered : Consistent (d.placements row) ↔ ∀ row', row'.Perm row → d.decode row' = .ok document
  /-- The values agree if no name goes on from another one. -/
  apart : (row.map Prod.fst).Nodup →
    (∀ name ∈ q.columnNames, ∀ name' ∈ q.columnNames,
      Text.split '.' name <+: Text.split '.' name' → name = name') →
    Consistent (d.placements row)

/-- The document of a row of a query that compiles has the columns of the row at the places
of their names, and nothing else. If a name goes on from another one, then this goes for
the columns only if their values agree, and only then for the row in every order. -/
theorem decode_placed (hq : q.IsOrdered) (hcompile : q.compile s options model = .ok sel) :
    ∃ d, ofSpec s model q = .ok d ∧ ∀ row document,
      (∀ b ∈ row, b.1 ∈ sel.columns.map Column.carrier) → d.decode row = .ok document →
      d.IsPlacedBy q row document := by
  obtain ⟨d, hd, hnames⟩ := names_of_compile hq hcompile
  refine ⟨d, hd, fun row document hrow hdecode => ?_⟩
  have hnamed : ∀ b ∈ row, d.Names q.columnNames b := fun b hb => hnames b (hrow b hb)
  have hknown : ∀ b ∈ row, ∃ c, Dict.get? b.1.name d.columns = some c :=
    fun b hb => (hnamed b hb).known
  have hputs := ((decode_eq_ok hknown).mp hdecode).2
  refine ⟨hnamed, ?_, ?_, consistent_iff_decode_perm hknown hdecode, consistent_placements hnamed⟩
  · rw [← hputs]
    exact Value.consistent_iff_at? (fun _ => isOrdered_of_mem_placements) _
  · intro path v hpath hv
    rw [← hputs] at hv
    refine (Value.gives_of_at?_putAll hv).resolve_left fun hempty => ?_
    cases path with
    | nil => exact hpath rfl
    | cons key rest => cases hempty

/-- The names of people, and the identifiers and the names of their mentors. -/
def ofMentors : Spec where
  fields :=
    [("mentor.id", .scalar (.ofText "mentor")), ("mentor.name", .scalar (.ofText "mentor.name")),
      ("name", .scalar (.ofText "name"))]

/-- Alice, whose mentor is Bob. -/
def mentorRow : List (Variable × Term) :=
  [(⟨"name"⟩, .literal (.plain "Alice")),
    (⟨"mentor\u00b7id"⟩, .iri ⟨"http://example.org/instances/person/bob"⟩),
    (⟨"mentor\u00b7name"⟩, .literal (.plain "Bob"))]

theorem decode_placed_mentors :
    ∃ sel d, ofMentors.IsOrdered ∧ ofMentors.compile peopleSchema {} "Person" = .ok sel ∧
      (∀ b ∈ mentorRow, b.1 ∈ sel.columns.map Column.carrier) ∧
      ofSpec peopleSchema "Person" ofMentors = .ok d ∧
      ∀ row, row.Perm mentorRow → d.decode row =
        .ok [("mentor", .obj [("id", .str "bob"), ("name", .str "Bob")]),
          ("name", .str "Alice")] := by
  have hordered : ofMentors.IsOrdered := by
    constructor <;> unfold Dict.IsSorted <;> decide
  obtain ⟨sel, hcompile, hrow⟩ : ∃ sel, ofMentors.compile peopleSchema {} "Person" = .ok sel ∧
      ∀ b ∈ mentorRow, b.1 ∈ sel.columns.map Column.carrier :=
    ⟨_, rfl, by decide⟩
  obtain ⟨d, hd, hdecode⟩ : ∃ d, ofSpec peopleSchema "Person" ofMentors = .ok d ∧
      d.decode mentorRow = .ok [("mentor", .obj [("id", .str "bob"), ("name", .str "Bob")]),
        ("name", .str "Alice")] :=
    ⟨_, rfl, rfl⟩
  obtain ⟨d', hd', h⟩ := decode_placed hordered hcompile
  obtain rfl := Except.ok.inj (hd.symm.trans hd')
  have hplaced := h mentorRow _ hrow hdecode
  exact ⟨sel, d, hordered, hcompile, hrow, hd,
    hplaced.unordered.mp (hplaced.apart (by decide) (by decide))⟩

/-- The mentors of people, and the names of these under a name that goes on from theirs. -/
def ofNestedMentors : Spec where
  fields :=
    [("mentor", .scalar (.ofText "mentor")), ("mentor.name", .scalar (.ofText "mentor.name"))]

/-- Bob as a mentor. -/
def nestedMentorRow : List (Variable × Term) :=
  [(⟨"mentor"⟩, .iri ⟨"http://example.org/instances/person/bob"⟩),
    (⟨"mentor\u00b7name"⟩, .literal (.plain "Bob"))]

/-- Where a name goes on from another one, the document has the column that comes last, and
the other one is lost. -/
theorem not_placed_nestedMentors :
    ∃ sel d, ofNestedMentors.IsOrdered ∧
      ofNestedMentors.compile peopleSchema {} "Person" = .ok sel ∧
      (∀ b ∈ nestedMentorRow, b.1 ∈ sel.columns.map Column.carrier) ∧
      ofSpec peopleSchema "Person" ofNestedMentors = .ok d ∧
      d.decode nestedMentorRow = .ok [("mentor", .obj [("name", .str "Bob")])] ∧
      d.decode nestedMentorRow.reverse = .ok [("mentor", .str "bob")] := by
  have hordered : ofNestedMentors.IsOrdered := by
    constructor <;> unfold Dict.IsSorted <;> decide
  exact ⟨_, _, hordered, rfl, by decide, rfl, rfl, rfl⟩

end Decoder

end DocGraph
