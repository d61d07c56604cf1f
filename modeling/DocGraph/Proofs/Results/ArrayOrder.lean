import DocGraph.Proofs.Column.Packed
import DocGraph.Proofs.Results.Blanks
import DocGraph.Proofs.Results.Columns
import DocGraph.Proofs.Results.ValueOrder

/-!
# The order of arrays

A store packs the elements of an array in any order. Whatever it is, the column is decoded to the
same value exactly if no two of its elements are different numbers that are the same in binary64
(`Decoder.columnValue_perm_iff`), and so is the row. The directives of a query change nothing but
the directions of its columns (`Decoder.ofSpec_sort`), and an array in descending order is the
reverse of the one in ascending order (`Decoder.columnValue_descending`).
-/

namespace DocGraph

open Json (Value)
open Rdf (Term Variable)

/-! ## The same elements -/

/-- Whether a column holds an array. -/
def ColumnKind.IsArray : ColumnKind → Prop
  | .value _ => False
  | .values _ => True
  | .objects _ single => single = false

/-- An array the other way round. -/
def Json.Value.reversed : Value → Value
  | .arr items => .arr items.reverse
  | v => v

namespace DecodedColumn

/-- Whether two terms hold the same elements for a column, those of an array in any order. -/
def SameElements (c : DecodedColumn) (t t' : Term) : Prop :=
  match c.kind with
  | .value _ => t = t'
  | .values _ => ∃ texts texts', Packing.unpackValues c.field t.lexical = .ok texts ∧
      Packing.unpackValues c.field t'.lexical = .ok texts' ∧ texts.Perm texts'
  | .objects _ _ => ∃ objects objects', Packing.unpackObjects c.field t.lexical = .ok objects ∧
      Packing.unpackObjects c.field t'.lexical = .ok objects' ∧ objects.Perm objects'

/-- Whether a term holds, for an array of numbers, two different numbers that are the same in
binary64. -/
def HasTie (c : DecodedColumn) (t : Term) : Prop :=
  c.kind = .values (.scalar .number) ∧
    ∃ texts, Packing.unpackValues c.field t.lexical = .ok texts ∧
      ∃ a ∈ texts, ∃ b ∈ texts, ∃ m n, Scalar.number? a = some (.num m) ∧
        Scalar.number? b = some (.num n) ∧ m ≠ n ∧ m.toBinary64 = n.toBinary64

end DecodedColumn

namespace Decoder

variable {d : Decoder} {c : DecodedColumn} {kind : ValueKind} {t t' : Term} {text : String}

/-! ## Values of texts -/

theorem timestampRange_of_textValue {e : Error} (h : d.textValue kind text = .error e) :
    e = .timestampRange := by
  cases kind with
  | scalar kind =>
    cases kind with
    | date =>
      have htext : Scalar.timestampText (.str text) = .error e :=
        Outcome.bind_pure_eq_error.mp h
      unfold Scalar.timestampText at htext
      split at htext
      · cases htext
      · split at htext
        · cases htext
        · exact (Except.error.inj htext).symm
    | _ => cases h
  | _ => cases h

theorem timestampRange_of_memberValues {kinds : Dict ValueKind} {o : Dict String} {e : Error}
    (h : d.memberValues kinds o = .error e) : e = .timestampRange := by
  induction o with
  | nil => cases h
  | cons m rest ih =>
    rcases Outcome.bind_eq_error.mp h with h | ⟨v, -, h⟩
    · exact timestampRange_of_textValue h
    · exact ih (Outcome.bind_pure_eq_error.mp h)

/-- Only the texts of numbers are decoded to numbers. -/
theorem number?_of_textValue {m : Json.Number} (h : d.textValue kind text = .ok (.num m)) :
    kind = .scalar .number ∧ Scalar.number? text = some (.num m) := by
  cases kind with
  | scalar kind =>
    cases kind with
    | number =>
      refine ⟨rfl, ?_⟩
      have hvalue := Except.ok.inj h
      cases hnumber : Scalar.number? text with
      | none =>
        rw [hnumber] at hvalue
        cases hvalue
      | some v =>
        rw [hnumber] at hvalue
        exact congrArg some hvalue
    | string => cases h
    | boolean =>
      have hvalue := Except.ok.inj h
      cases htruth : Scalar.truth? text <;> rw [htruth] at hvalue <;> cases hvalue
    | date =>
      obtain ⟨_, -, h⟩ := Outcome.bind_eq_ok.mp h
      cases h
  | _ => cases h

/-! ## Columns -/

/-- A column of an array is decoded alike from the same elements in any order, but for ties. -/
theorem columnValue_eq_of_sameElements (h : c.SameElements t t') (hties : ¬c.HasTie t) :
    d.columnValue c t' = d.columnValue c t := by
  obtain ⟨field, kind, direction⟩ := c
  cases kind with
  | value kind =>
    obtain rfl : t = t' := h
    rfl
  | values kind =>
    obtain ⟨texts, texts', htexts, htexts', hperm⟩ := h
    simp only [columnValue, htexts, htexts', Outcome.ok_bind]
    rcases Outcome.mapM_perm (f := d.textValue kind) hperm fun _ _ _ _ he he' =>
        (timestampRange_of_textValue he).trans (timestampRange_of_textValue he').symm with
      ⟨e, he, he'⟩ | ⟨values, values', hvalues, hvalues', hperm⟩
    · rw [he, he']
    · have hnumber {m : Json.Number} (hm : .num m ∈ values) : kind = .scalar .number ∧
          ∃ a ∈ texts, Scalar.number? a = some (.num m) := by
        obtain ⟨a, ha, hvalue⟩ := exists_left_of_mem (Outcome.mapM_eq_ok.mp hvalues) hm
        exact ⟨(number?_of_textValue hvalue).1, a, ha, (number?_of_textValue hvalue).2⟩
      rw [hvalues, hvalues', Outcome.ok_bind, Outcome.ok_bind, sortValues_eq_of_perm hperm]
      intro m n hm hn hmn
      by_contra hne
      obtain ⟨rfl, a, ha, ham⟩ := hnumber hm
      obtain ⟨-, b, hb, hbn⟩ := hnumber hn
      exact hties ⟨rfl, texts, htexts, a, ha, b, hb, m, n, ham, hbn, hne, hmn⟩
  | objects kinds single =>
    obtain ⟨objects, objects', hobjects, hobjects', hperm⟩ := h
    simp only [columnValue, hobjects, hobjects', Outcome.ok_bind]
    rcases Outcome.mapM_perm (f := d.memberValues kinds) hperm fun _ _ _ _ he he' =>
        (timestampRange_of_memberValues he).trans (timestampRange_of_memberValues he').symm with
      ⟨e, he, he'⟩ | ⟨members, members', hmembers, hmembers', hperm⟩
    · rw [he, he']
    · rw [hmembers, hmembers', Outcome.ok_bind, Outcome.ok_bind,
        sortValues_eq_of_perm ((hperm.filter _).map Value.obj)]
      intro m n hm
      obtain ⟨_, -, h⟩ := List.mem_map.mp hm
      cases h

/-- The term of an array that holds texts, packed in this order. -/
def packedTexts (texts : List String) : Term :=
  .literal (.plain (Packing.packedValues (texts.map Text.Percent.encode)))

theorem unpackValues_packedTexts (field : String) {texts : List String}
    (h : ∀ text ∈ texts, text ≠ "") :
    Packing.unpackValues field (packedTexts texts).lexical = .ok texts := by
  refine (Packing.unpackValues_packed field texts).trans (congrArg _ ?_)
  exact List.filter_eq_self.mpr fun text htext => decide_eq_true (h text htext)

/-- An array of numbers is sorted from what its texts are read as. -/
theorem columnValue_numbers (d : Decoder) (field : String) (direction : Direction)
    {texts : List String} (h : ∀ text ∈ texts, text ≠ "") :
    d.columnValue ⟨field, .values (.scalar .number), direction⟩ (packedTexts texts) =
      .ok (some (.arr (sortValues direction
        (texts.map fun s => (Scalar.number? s).getD (.str s))))) := by
  have hmap : texts.mapM (d.textValue (.scalar .number)) =
      .ok (texts.map fun s => (Scalar.number? s).getD (.str s)) := List.mapM_pure
  simp only [columnValue, unpackValues_packedTexts field h, Outcome.ok_bind, hmap, Outcome.pure_eq]

/-- Two numbers that tie are decoded in the order in which they are packed. -/
theorem exists_ne_of_hasTie (h : c.HasTie t) :
    ∃ t', c.SameElements t t' ∧ d.columnValue c t' ≠ d.columnValue c t := by
  obtain ⟨field, kind, direction⟩ := c
  obtain ⟨rfl, texts, htexts, a, ha, b, hb, m, n, ham, hbn, hne, hmn⟩ := h
  have hab : b ≠ a := by
    rintro rfl
    exact hne (Value.num.inj (Option.some.inj (ham.symm.trans hbn)))
  obtain ⟨rest, hperm⟩ : ∃ rest, texts.Perm (a :: b :: rest) :=
    ⟨_, (List.perm_cons_erase ha).trans
      ((List.perm_cons_erase ((List.mem_erase_of_ne hab).mpr hb)).cons a)⟩
  have hnonempty {texts' : List String} (hperm : texts.Perm texts') :
      ∀ text ∈ texts', text ≠ "" := fun text htext =>
    Packing.ne_empty_of_unpackValues htexts text (hperm.mem_iff.mpr htext)
  have hswap := hperm.trans (.swap b a rest)
  by_contra hall
  -- both orders of the two texts are decoded like the term, and so like each other
  have hsame {texts' : List String} (hperm : texts.Perm texts') :
      d.columnValue ⟨field, .values (.scalar .number), direction⟩ (packedTexts texts') =
        d.columnValue ⟨field, .values (.scalar .number), direction⟩ t := by
    by_contra hne
    exact hall ⟨packedTexts texts', ⟨texts, texts', htexts,
      unpackValues_packedTexts field (hnonempty hperm), hperm⟩, hne⟩
  have hsorted := (hsame hperm).trans (hsame hswap).symm
  rw [columnValue_numbers d field direction (hnonempty hperm),
    columnValue_numbers d field direction (hnonempty hswap)] at hsorted
  have hlists := Value.arr.inj (Option.some.inj (Except.ok.inj hsorted))
  simp only [List.map_cons, ham, hbn, Option.getD_some] at hlists
  exact hne (eq_of_sortValues_swap hmn hlists)

/-- A column is decoded alike from the same elements in every order exactly if it has no tie. -/
theorem columnValue_perm_iff :
    (∀ t', c.SameElements t t' → d.columnValue c t' = d.columnValue c t) ↔ ¬c.HasTie t := by
  constructor
  · intro hall htie
    obtain ⟨t', hsame, hne⟩ := exists_ne_of_hasTie (d := d) htie
    exact hne (hall t' hsame)
  · exact fun hties t' hsame => columnValue_eq_of_sameElements hsame hties

/-! ## Rows -/

/-- Whether two bindings of one variable hold the same elements in any order, without a tie. -/
def SameBinding (d : Decoder) (b b' : Variable × Term) : Prop :=
  b.1 = b'.1 ∧ (b.2 = b'.2 ∨ ∃ c, Dict.get? b.1.name d.columns = some c ∧
    c.SameElements b.2 b'.2 ∧ ¬c.HasTie b.2)

theorem addBinding_eq_of_sameBinding {b b' : Variable × Term} (h : d.SameBinding b b')
    (document : Document) :
    d.addBinding document b.1 b.2 = d.addBinding document b'.1 b'.2 := by
  obtain ⟨v, t⟩ := b
  obtain ⟨v', t'⟩ := b'
  obtain ⟨rfl, rfl | ⟨c, hc, hsame, hties⟩⟩ := h
  · rfl
  · dsimp only at hc hsame hties
    simp only [addBinding, hc, columnValue_eq_of_sameElements hsame hties]

/-- Rows of the same elements make the same document. -/
theorem decode_eq_of_sameBindings {row row' : List (Variable × Term)}
    (h : List.Forall₂ d.SameBinding row row') : d.decode row = d.decode row' := by
  unfold decode
  generalize ([] : Document) = document
  induction h generalizing document with
  | nil => rfl
  | @cons b b' row row' hb _ ih =>
    rw [List.foldlM_cons, List.foldlM_cons]
    change (d.addBinding document b.1 b.2 >>= _) = (d.addBinding document b'.1 b'.2 >>= _)
    rw [addBinding_eq_of_sameBinding hb, funext ih]

/-! ## Directions -/

/-- The column with the direction that directives give it. -/
def sortedColumn (sort : List SortDirective) (c : DecodedColumn) : DecodedColumn :=
  { c with direction := (({ sort := sort } : Spec).direction? c.field).getD .ascending }

/-- The columns with the directions that directives give them. -/
def sortedColumns (sort : List SortDirective) (columns : Dict DecodedColumn) :
    Dict DecodedColumn :=
  columns.map fun e => (e.1, sortedColumn sort e.2)

/-- The decoder with the directions that directives give its columns. -/
def sortedBy (d : Decoder) (sort : List SortDirective) : Decoder :=
  { d with columns := sortedColumns sort d.columns }

theorem get?_sortedBy {sort : List SortDirective} {name : String}
    (h : Dict.get? name d.columns = some c) :
    Dict.get? name (d.sortedBy sort).columns = some (sortedColumn sort c) := by
  rw [sortedBy, sortedColumns, Dict.get?_map, h]
  rfl

theorem addColumn_sortedBy (q : Spec) (sort : List SortDirective) (columns : Dict DecodedColumn)
    (name : String) (kind : ColumnKind) :
    addColumn { q with sort := sort } (sortedColumns sort columns) name kind =
      (addColumn q columns name kind).map (sortedColumns sort) := by
  unfold addColumn
  cases outputVariable name with
  | error e => rfl
  | ok output =>
    have hinsert : Dict.insert output.name
        (sortedColumn sort ⟨name, kind, (q.direction? name).getD .ascending⟩)
        (sortedColumns sort columns) = _ :=
      Dict.insert_map (sortedColumn sort)
    exact congrArg Except.ok hinsert

theorem foldlM_sortedBy (s : Schema) (model : String) (q : Spec) (sort : List SortDirective)
    (sources : List (String × ColumnSource)) (columns : Dict DecodedColumn) :
    sources.foldlM (fun columns (e : String × ColumnSource) => do
        addColumn { q with sort := sort } columns e.1 (← e.2.kind s model))
        (sortedColumns sort columns) =
      (sources.foldlM (fun columns (e : String × ColumnSource) => do
        addColumn q columns e.1 (← e.2.kind s model)) columns).map (sortedColumns sort) := by
  induction sources generalizing columns with
  | nil => rfl
  | cons e sources ih =>
    rw [List.foldlM_cons, List.foldlM_cons]
    cases e.2.kind s model with
    | error error => rfl
    | ok kind =>
      rw [Outcome.ok_bind, Outcome.ok_bind, addColumn_sortedBy]
      cases addColumn q columns e.1 kind with
      | error error => rfl
      | ok columns' => exact ih columns'

/-- A query with other directives has the same columns, with the directions they give. -/
theorem ofSpec_sort {s : Schema} {model : String} {q : Spec} (hd : ofSpec s model q = .ok d)
    (sort : List SortDirective) :
    ofSpec s model { q with sort := sort } = .ok (d.sortedBy sort) := by
  obtain ⟨q', hq', -⟩ := Outcome.bind_eq_ok.mp hd
  have hsort : ({ q with sort := sort } : Spec).normalized s model =
      .ok { q' with sort := sort } := by
    obtain ⟨fields, hfields, hq'⟩ := Outcome.bind_eq_ok.mp hq'
    obtain rfl := Except.ok.inj hq'
    rw [Spec.normalized]
    dsimp only
    rw [hfields]
    rfl
  rw [ofSpec_of_normalized hq'] at hd
  obtain ⟨columns, hcolumns, hd⟩ := Outcome.bind_eq_ok.mp hd
  obtain rfl := Except.ok.inj hd
  have hsorted := foldlM_sortedBy s model q' sort q'.sources []
  rw [hcolumns] at hsorted
  rw [ofSpec_of_normalized hsort]
  exact congrArg (fun columns => columns >>= fun columns => pure (Decoder.mk s columns)) hsorted

theorem memberValues_sortedBy (sort : List SortDirective) (kinds : Dict ValueKind)
    (o : Dict String) : (d.sortedBy sort).memberValues kinds o = d.memberValues kinds o := by
  induction o with
  | nil => rfl
  | cons m rest ih =>
    rw [memberValues, memberValues, ih]
    rfl

/-- What is decoded does not depend on the columns of the decoder. -/
theorem columnValue_sortedBy (sort : List SortDirective) :
    (d.sortedBy sort).columnValue c t = d.columnValue c t := by
  have htext : (d.sortedBy sort).textValue = d.textValue := rfl
  have hvalue : (d.sortedBy sort).value = d.value := rfl
  unfold columnValue
  rw [htext, hvalue]
  simp only [funext (memberValues_sortedBy sort _)]

/-- An array in descending order is the reverse of the one in ascending order. -/
theorem columnValue_descending (h : c.kind.IsArray) :
    d.columnValue { c with direction := .descending } t =
      (d.columnValue { c with direction := .ascending } t).map (Option.map Value.reversed) := by
  obtain ⟨field, kind, direction⟩ := c
  cases kind with
  | value kind => exact absurd h id
  | values kind =>
    simp only [columnValue]
    cases Packing.unpackValues field t.lexical with
    | error e => rfl
    | ok texts =>
      rw [Outcome.ok_bind, Outcome.ok_bind]
      cases texts.mapM (d.textValue kind) <;> rfl
  | objects kinds single =>
    obtain rfl : single = false := h
    simp only [columnValue]
    cases Packing.unpackObjects field t.lexical with
    | error e => rfl
    | ok objects =>
      rw [Outcome.ok_bind, Outcome.ok_bind]
      cases objects.mapM (d.memberValues kinds) <;> rfl

/-! ## The order of arrays -/

/-- The decoder of a query puts arrays in order itself. Its comparison is total and transitive; a
column is decoded alike from the same elements in any order exactly if no two of them are
different numbers that are the same in binary64, and so is a row; and an array that a directive
wants in descending order is the reverse of the one in ascending order. -/
theorem imposes_order {s : Schema} {model : String} {q : Spec} (hd : ofSpec s model q = .ok d) :
    (∀ v w, notAfter v w = true ∨ notAfter w v = true) ∧
    (∀ u v w, notAfter u v = true → notAfter v w = true → notAfter u w = true) ∧
    (∀ c t, (∀ t', c.SameElements t t' → d.columnValue c t' = d.columnValue c t) ↔
      ¬c.HasTie t) ∧
    (∀ row row', List.Forall₂ d.SameBinding row row' → d.decode row = d.decode row') ∧
    ∀ name c, Dict.get? name d.columns = some c → c.kind.IsArray → c.direction = .ascending →
      ∀ sort, ({ q with sort := sort } : Spec).direction? c.field = some .descending →
        ∃ d' c', ofSpec s model { q with sort := sort } = .ok d' ∧
          Dict.get? name d'.columns = some c' ∧
          ∀ t, d'.columnValue c' t = (d.columnValue c t).map (Option.map Value.reversed) := by
  refine ⟨fun v w => ?_, notAfter_trans, fun c t => columnValue_perm_iff,
    fun row row' => decode_eq_of_sameBindings, fun name c hc hkind hascending sort hsort => ?_⟩
  · exact Bool.or_eq_true_iff.mp (notAfter_total v w)
  · refine ⟨d.sortedBy sort, sortedColumn sort c, ofSpec_sort hd sort, get?_sortedBy hc,
      fun t => ?_⟩
    have hcolumn : sortedColumn sort c = { c with direction := .descending } := by
      rw [sortedColumn]
      exact congrArg (fun o : Option Direction => { c with direction := o.getD .ascending }) hsort
    rw [columnValue_sortedBy, hcolumn, columnValue_descending hkind, ← hascending]

/-- The nicknames of people. -/
def ofNicknames : Spec where
  fields := [("nicknames", .array (.ofText "nicknames"))]

theorem imposes_order_ofNicknames :
    ∃ d, ofSpec peopleSchema "Person" ofNicknames = .ok d ∧
      d.decode [(⟨"nicknames"⟩, packedTexts ["Bo", "Al", "Cy"])] =
        d.decode [(⟨"nicknames"⟩, packedTexts ["Cy", "Bo", "Al"])] ∧
      ∃ d' c, ofSpec peopleSchema "Person"
          { ofNicknames with sort := [⟨"nicknames", .descending⟩] } = .ok d' ∧
        Dict.get? "nicknames" d'.columns = some c ∧
        d'.columnValue c (packedTexts ["Bo", "Al"]) =
          (d.columnValue ⟨"nicknames", .values (.scalar .string), .ascending⟩
            (packedTexts ["Bo", "Al"])).map (Option.map Value.reversed) := by
  let column : DecodedColumn := ⟨"nicknames", .values (.scalar .string), .ascending⟩
  have hd : ofSpec peopleSchema "Person" ofNicknames =
      .ok ⟨peopleSchema, [("nicknames", column)]⟩ := rfl
  obtain ⟨-, -, -, hrows, hsort⟩ := imposes_order hd
  refine ⟨_, hd, hrows _ _ (.cons ⟨rfl, .inr ⟨column, rfl, ?_, nofun⟩⟩ .nil), ?_⟩
  · exact ⟨_, _, Packing.unpackValues_packed _ _, Packing.unpackValues_packed _ _, by decide⟩
  · obtain ⟨d', c, hd', hc, hvalue⟩ := hsort "nicknames" column rfl trivial rfl
      [⟨"nicknames", .descending⟩] rfl
    exact ⟨d', c, hd', hc, hvalue _⟩

/-- The ages of the friends of people. -/
def ofAges : Spec where
  aggregates := [("ages", ⟨.array, some (.ofText "friends.age"), [], false⟩)]

/-- Two different integers that are the same in binary64 are decoded in the order in which the
store packs them, here against their size. -/
theorem not_imposes_order :
    ∃ d m n, ofSpec peopleSchema "Person" ofAges = .ok d ∧ m ≠ n ∧
      Value.ofInt? 9007199254740992 = some m ∧ Value.ofInt? 9007199254740993 = some n ∧
      d.decode [(⟨"ages"⟩, packedTexts ["9007199254740992", "9007199254740993"])] =
        .ok [("ages", .arr [m, n])] ∧
      d.decode [(⟨"ages"⟩, packedTexts ["9007199254740993", "9007199254740992"])] =
        .ok [("ages", .arr [n, m])] := by
  let column : DecodedColumn := ⟨"ages", .values (.scalar .number), .ascending⟩
  let d : Decoder := ⟨peopleSchema, [("ages", column)]⟩
  have hd : ofSpec peopleSchema "Person" ofAges = .ok d := rfl
  have hdecode {texts : List String} {values : List Value} (hne : ∀ text ∈ texts, text ≠ "")
      (htexts : texts.map (fun s => (Scalar.number? s).getD (.str s)) = values)
      (hblank : isBlank (.arr values) = false)
      (hsorted : values.Pairwise fun v w => notAfter v w = true) :
      d.decode [(⟨"ages"⟩, packedTexts texts)] = .ok [("ages", .arr values)] := by
    have hvalue : d.columnValue column (packedTexts texts) = .ok (some (.arr values)) := by
      rw [columnValue_numbers d _ _ hne, htexts, sortValues, List.mergeSort_of_pairwise hsorted]
    have hcolumn : Dict.get? "ages" d.columns = some column := rfl
    have hbinding : d.addBinding [] ⟨"ages"⟩ (packedTexts texts) = .ok [("ages", .arr values)] := by
      simp only [addBinding, hcolumn, hvalue, Outcome.ok_bind, insertValue, hblank,
        Bool.false_eq_true, if_false]
      have hsplit : Text.split '.' column.field = ["ages"] := by decide
      rw [hsplit]
      rfl
    rw [decode, List.foldlM_cons]
    dsimp only
    rw [hbinding]
    rfl
  have hne : (9007199254740992 : Int) ≠ 9007199254740993 := by decide
  refine ⟨d, .num (.integer ⟨9007199254740992, by decide, by decide⟩),
    .num (.integer ⟨9007199254740993, by decide, by decide⟩), hd, fun h => hne ?_, rfl, rfl, ?_, ?_⟩
  · exact congrArg Json.Integer.val (Json.Number.integer.inj (Value.num.inj h))
  · exact hdecode (by decide) rfl rfl (by decide +kernel)
  · exact hdecode (by decide) rfl rfl (by decide +kernel)

end Decoder

end DocGraph
