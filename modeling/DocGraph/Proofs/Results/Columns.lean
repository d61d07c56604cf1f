import DocGraph.Proofs.Compile.Columns
import DocGraph.Proofs.Json.Written
import DocGraph.Proofs.Schema.Built
import DocGraph.Results.Decoder
import Mathlib.Data.List.Nodup

/-!
# The columns that a decoder knows

The compiler and the decoder of a query go over its fields and aggregates on their own.
Where the one makes a column, the other knows what it holds (`ColumnSource.isKnown`), so the
decoder of a query that compiles knows all columns of its selection, and no others, each
in the way it is packed (`Decoder.ofSpec_of_compile`).
-/

namespace DocGraph

open Rdf (Variable)
open Sparql (Expr)

/-! ## Spelled keys -/

/-- The key that the fragment before the value of a member spells: what is in quotes behind
the brace, or behind the end of the value before it. -/
def Packing.spelledKey? (index : Nat) (fragment : String) : Option String :=
  (Json.quoted? (fragment.toList.drop (if index = 0 then 2 else 3))).map fun (key, _) =>
    String.ofList key

/-- The keys that the fragments of an object spell, from its member at an index on. -/
def spelledKeys (index : Nat) : List Expr → List String
  | .literal (.plain fragment) :: _ :: rest =>
    (Packing.spelledKey? index fragment).toList ++ spelledKeys (index + 1) rest
  | _ => []

theorem Packing.spelledKey?_memberStart (index : Nat) (key : String) :
    spelledKey? index (memberStart index key) = some key := by
  have hdrop : (memberStart index key).toList.drop (if index = 0 then 2 else 3) =
      key.toList.flatMap Json.escapeChar ++ '"' :: [':', '"'] := by
    rw [memberStart, Json.quote]
    split <;> simp
  rw [spelledKey?, hdrop, Json.quoted?_escaped]
  exact congrArg some String.ofList_toList

/-- The fragments of an object spell the keys of its members in order. -/
theorem spelledKeys_objectFragments (index : Nat) (parts : List (String × Expr)) :
    spelledKeys index (objectFragments index parts) = parts.map Prod.fst := by
  induction parts generalizing index with
  | nil => rfl
  | cons part rest ih =>
    rw [objectFragments, Expr.string, spelledKeys, Packing.spelledKey?_memberStart, ih]
    rfl

/-! ## Columns that fit -/

/-- Whether a column is projected as its values are decoded: a single value as it is, an
array from encoded values, and objects from fragments that spell the keys of their
members in order. -/
def ColumnKind.Fits : ColumnKind → Column → Prop
  | .value _, .plain _ => True
  | .value _, .aggregate _ _ _ => True
  | .values _, .packed _ _ encoded Packing.values body =>
    ∃ elements value, body = elements ++ [.bind encoded (Projection.encoded value)]
  | .objects members _, .packed _ _ encoded Packing.objects body =>
    ∃ elements parts, parts.map Prod.fst = Dict.keys members ∧
      spelledKeys 0 (objectFragments 0 parts) = Dict.keys members ∧
      body = elements ++ [.bind encoded (.call .concat (objectFragments 0 parts))]
  | _, _ => False

variable {s : Schema} {model name : String} {q : Spec} {output : Variable} {c : CompiledColumn}

/-! ## Paths and members -/

theorem ValueKind.exists_ofPath {path : Path} {r : ResolvedPath}
    (h : s.resolve model path = .ok r) : ∃ kind, ofPath s model path = .ok kind := by
  rw [ofPath, h, Outcome.ok_bind]
  split
  · exact ⟨_, rfl⟩
  · split
    · exact ⟨_, rfl⟩
    · exact ⟨_, rfl⟩
    · split <;> exact ⟨_, rfl⟩

/-- A path that has a value resolves. -/
theorem ValueKind.exists_of_valueAt {path : Path} {value : Expr}
    (h : Projection.valueAt s model path = .ok value) :
    ∃ kind, ofPath s model path = .ok kind := by
  obtain ⟨r, hr, -⟩ := Outcome.bind_eq_ok.mp h
  exact exists_ofPath hr

/-- The members of objects that are compiled are known. -/
theorem ValueKind.exists_ofMembers {property : Path} {members : Dict Path}
    {compiled : List CompiledMember}
    (h : List.Forall₂ (CompiledMember.IsOf s model property) members compiled) :
    ∃ kinds, ofMembers s model property members = .ok kinds ∧
      Dict.keys kinds = compiled.map CompiledMember.key := by
  have hsucceeds : (ofMembers s model property members).Succeeds := by
    rw [ofMembers, Outcome.succeeds_mapM]
    intro m hm
    obtain ⟨c, -, hc⟩ := exists_right_of_mem h hm
    exact Outcome.succeeds_bind_pure.mpr (exists_of_valueAt hc.value)
  obtain ⟨kinds, hkinds⟩ := hsucceeds
  refine ⟨kinds, hkinds, ?_⟩
  rw [CompiledMember.keys_eq h]
  refine Dict.keys_of_mapM hkinds fun m kind hkind => ?_
  obtain ⟨k, -, hkind⟩ := Outcome.bind_eq_ok.mp hkind
  rw [← Except.ok.inj hkind]

/-! ## Columns -/

/-- Whether a column carries a variable and is known to hold values of a kind. -/
def CompiledColumn.IsKnown (c : CompiledColumn) (output : Variable)
    (kind : Outcome ColumnKind) : Prop :=
  c.column.carrier = output ∧ ∃ known, kind = .ok known ∧ known.Fits c.column

theorem isKnown_valuesColumn {path : Path}
    (h : Projection.valuesColumn s model name output path = .ok c) :
    c.IsKnown output (do return .values (← ValueKind.ofPath s model path)) := by
  obtain ⟨encoded, packed, hops, value, -, -, -, hvalue, rfl⟩ := Projection.valuesColumn_eq_ok h
  obtain ⟨kind, hkind⟩ := ValueKind.exists_of_valueAt hvalue
  rw [hkind]
  exact ⟨rfl, _, rfl, hops, value, rfl⟩

theorem isKnown_objectsColumn {property : Path} {members : Dict Path} (single : Bool)
    (h : Projection.objectsColumn s model name output property members = .ok c) :
    c.IsKnown output
      (do return .objects (← ValueKind.ofMembers s model property members) single) := by
  obtain ⟨encoded, packed, hops, compiled, -, -, -, hcompiled, rfl⟩ :=
    Projection.objectsColumn_eq_ok h
  obtain ⟨kinds, hkinds, hkeys⟩ := ValueKind.exists_ofMembers hcompiled
  have hparts : (compiled.map fun m => (m.key, m.value)).map Prod.fst = Dict.keys kinds := by
    rw [List.map_map, hkeys]
    rfl
  rw [hkinds]
  exact ⟨rfl, _, rfl, hops ++ CompiledMember.blocks compiled, _, hparts,
    (spelledKeys_objectFragments 0 _).trans hparts, rfl⟩

theorem isKnown_reducedColumn {path : Path} {r : Sparql.Reduction} {distinct : Bool}
    (h : Projection.reducedColumn s model output path r distinct = .ok c) :
    c.IsKnown output (.ok (.value .any)) ∧
      c.IsKnown output (do return .value (← ValueKind.ofPath s model path)) := by
  obtain ⟨value, hops, hvalue, -, rfl⟩ := Projection.reducedColumn_eq_ok h
  obtain ⟨kind, hkind⟩ := ValueKind.exists_of_valueAt hvalue
  rw [hkind]
  exact ⟨⟨rfl, _, rfl, trivial⟩, rfl, _, rfl, trivial⟩

theorem isKnown_fieldColumn {selector : Selector}
    (h : Projection.fieldColumn s model name selector = .ok c) :
    ∃ output, outputVariable name = .ok output ∧
      c.IsKnown output (ColumnKind.ofSelector s model selector) := by
  obtain ⟨output, houtput, h⟩ := Outcome.bind_eq_ok.mp h
  refine ⟨output, houtput, ?_⟩
  cases selector with
  | scalar field =>
    obtain ⟨value, hvalue, h⟩ := Outcome.bind_eq_ok.mp h
    obtain rfl := Except.ok.inj h
    obtain ⟨kind, hkind⟩ := ValueKind.exists_of_valueAt hvalue
    rw [ColumnKind.ofSelector, hkind]
    exact ⟨rfl, _, rfl, trivial⟩
  | array field => exact isKnown_valuesColumn h
  | objects property members => exact isKnown_objectsColumn false h

theorem isKnown_aggregateColumn {a : Aggregation}
    (h : Projection.aggregateColumn s model name a = .ok c) :
    ∃ output, outputVariable name = .ok output ∧
      c.IsKnown output (ColumnKind.ofAggregation s model a) := by
  obtain ⟨output, houtput, h⟩ := Outcome.bind_eq_ok.mp h
  refine ⟨output, houtput, ?_⟩
  obtain ⟨aggregator, property, members, distinct⟩ := a
  cases property with
  | none =>
    obtain rfl := Except.ok.inj h
    exact ⟨rfl, _, rfl, trivial⟩
  | some path =>
    cases aggregator with
    | count | sum | avg => exact (isKnown_reducedColumn h).1
    | min | max => exact (isKnown_reducedColumn h).2
    | array =>
      rw [ColumnKind.ofAggregation]
      by_cases hempty : members.isEmpty = true
      · simp only [hempty, if_true] at h ⊢
        exact isKnown_valuesColumn h
      · simp only [hempty, Bool.false_eq_true, if_false] at h ⊢
        exact isKnown_objectsColumn false h
    | object => exact isKnown_objectsColumn true h

/-- What the column of a source holds. -/
def ColumnSource.kind (s : Schema) (model : String) : ColumnSource → Outcome ColumnKind
  | .field selector => ColumnKind.ofSelector s model selector
  | .aggregate a => ColumnKind.ofAggregation s model a

/-- A source that compiles has a column that is known. -/
theorem ColumnSource.isKnown {source : ColumnSource} (h : source.compile s model name = .ok c) :
    ∃ output, outputVariable name = .ok output ∧ c.IsKnown output (source.kind s model) := by
  cases source with
  | field selector => exact isKnown_fieldColumn h
  | aggregate a => exact isKnown_aggregateColumn h

/-! ## The decoder of a query -/

namespace Decoder

/-- A decoder goes over the sources of the columns. -/
theorem ofSpec_of_normalized {q' : Spec} (h : q.normalized s model = .ok q') :
    ofSpec s model q =
      (do
        let columns ← q'.sources.foldlM
          (fun columns e => do addColumn q' columns e.1 (← e.2.kind s model)) []
        return ⟨s, columns⟩) := by
  rw [ofSpec, h, Outcome.ok_bind, Spec.sources, List.foldlM_append, List.foldlM_map, bind_assoc]
  simp only [List.foldlM_map]
  rfl

/-- Sources that compile have entries of the decoder that fit their columns. -/
theorem exists_entries (q' : Spec) {sources : List (String × ColumnSource)}
    {compiled : List CompiledColumn}
    (h : List.Forall₂ (fun e c => e.2.compile s model e.1 = .ok c) sources compiled)
    (columns : Dict DecodedColumn) :
    ∃ entries : List (String × DecodedColumn),
      sources.foldlM (fun columns e => do addColumn q' columns e.1 (← e.2.kind s model)) columns =
        .ok (entries.foldl (fun d e => Dict.insert e.1 e.2 d) columns) ∧
      entries.map Prod.fst = compiled.map (·.column.carrier.name) ∧
      List.Forall₂ (fun e c => outputVariable e.1 = .ok c.column.carrier ∧
        ∃ d, (c.column.carrier.name, d) ∈ entries ∧ d.field = e.1 ∧ d.kind.Fits c.column)
        sources compiled := by
  induction h generalizing columns with
  | nil => exact ⟨[], rfl, rfl, .nil⟩
  | @cons e c sources compiled he _ ih =>
    obtain ⟨output, houtput, rfl, kind, hkind, hfits⟩ := ColumnSource.isKnown he
    let d : DecodedColumn := ⟨e.1, kind, (q'.direction? e.1).getD .ascending⟩
    obtain ⟨entries, hfold, hnames, hcolumns⟩ :=
      ih (Dict.insert c.column.carrier.name d columns)
    refine ⟨(c.column.carrier.name, d) :: entries, ?_, ?_, .cons ?_ ?_⟩
    · rw [List.foldlM_cons, hkind, Outcome.ok_bind, addColumn, houtput, Outcome.ok_bind,
        Outcome.pure_eq, Outcome.ok_bind, hfold]
      rfl
    · rw [List.map_cons, List.map_cons, hnames]
    · exact ⟨houtput, d, List.mem_cons_self, rfl, hfits⟩
    · refine hcolumns.imp fun e c hc => ?_
      obtain ⟨hvariable, d', hd', hc⟩ := hc
      exact ⟨hvariable, d', List.mem_cons_of_mem _ hd', hc⟩

/-- The decoder of a query that compiles is made of an entry for each column of its
selection, which are different. -/
theorem exists_ofSpec {options : CompileOptions} {sel : Selection} (hq : q.IsOrdered)
    (h : q.compile s options model = .ok sel) :
    ∃ entries : List (String × DecodedColumn),
      ofSpec s model q = .ok ⟨s, Dict.ofEntries entries⟩ ∧
      (sel.columns.map Column.carrier).Nodup ∧ (entries.map Prod.fst).Nodup ∧
      entries.map Prod.fst = sel.columns.map (·.carrier.name) ∧
      List.Forall₂ (fun name column => outputVariable name = .ok column.carrier ∧
        ∃ c, (column.carrier.name, c) ∈ entries ∧ c.field = name ∧ c.kind.Fits column)
        q.columnNames sel.columns := by
  obtain ⟨q', -, p, -, -, hvalid, hnormal, -, hp, -, rfl⟩ := Spec.compile_eq_ok h
  obtain ⟨-, compiled, -, -, -, hcompiled, -, hcolumns, -⟩ := Projection.compile_eq_ok hp
  obtain ⟨entries, hfold, hkeys, hknown⟩ := exists_entries q' hcompiled []
  obtain ⟨-, -, hnames⟩ := Spec.normalized_eq_ok hnormal
  have hcarriers : List.Forall₂ (fun name v => outputVariable name = .ok v) q.columnNames
      (compiled.map (·.column.carrier)) := by
    rw [← hnames, ← Spec.map_fst_sources, List.forall₂_map_left_iff, List.forall₂_map_right_iff]
    exact hknown.imp fun _ _ hc => hc.1
  have hdistinct : (compiled.map (·.column.carrier)).Nodup :=
    nodup_outputVariables hcarriers (Spec.isFieldName_of_mem_columnNames hvalid)
      (Spec.nodup_columnNames hq hvalid)
  refine ⟨entries, ?_, ?_, ?_, ?_, ?_⟩
  · rw [ofSpec_of_normalized hnormal, hfold]
    rfl
  · rw [hcolumns, List.map_map]
    exact hdistinct
  · rw [hkeys]
    refine List.Nodup.of_map Variable.mk ?_
    rw [List.map_map]
    exact hdistinct
  · rw [hcolumns, List.map_map]
    exact hkeys
  · rw [hcolumns, ← hnames, ← Spec.map_fst_sources, List.forall₂_map_left_iff,
      List.forall₂_map_right_iff]
    exact hknown

/-- The decoder of a query that compiles knows the columns of its selection, which are
different, and no others: each under the name of its field, and packed as it holds. -/
theorem ofSpec_of_compile {options : CompileOptions} {sel : Selection} (hq : q.IsOrdered)
    (h : q.compile s options model = .ok sel) :
    ∃ d, ofSpec s model q = .ok d ∧ (sel.columns.map Column.carrier).Nodup ∧
      (Dict.keys d.columns).Perm (sel.columns.map (·.carrier.name)) ∧
      List.Forall₂ (fun name column => outputVariable name = .ok column.carrier ∧
        ∃ c, Dict.get? column.carrier.name d.columns = some c ∧ c.field = name ∧
          c.kind.Fits column) q.columnNames sel.columns := by
  obtain ⟨entries, hd, hcarriers, hdistinct, hkeys, hknown⟩ := exists_ofSpec hq h
  refine ⟨_, hd, hcarriers, ?_, hknown.imp fun name column hc => ?_⟩
  · exact ((Dict.perm_ofEntries hdistinct).map Prod.fst).trans (.of_eq hkeys)
  · obtain ⟨hvariable, c, hmem, hc⟩ := hc
    exact ⟨hvariable, c, Dict.get?_ofEntries hdistinct hmem, hc⟩

/-- A query of people with columns of every kind: one value, all values of a path, and
objects; counted documents, a greatest value, all values, and all objects or one. -/
def everyColumn : Spec where
  fields :=
    [("friends", .objects (.ofText "friends") [("age", .ofText "age"), ("name", .ofText "name")]),
      ("name", .scalar (.ofText "name")), ("nicknames", .scalar (.ofText "nicknames")),
      ("teacher.names", .array (.ofText "mentor.name"))]
  aggregates :=
    [("ages", ⟨.array, some (.ofText "age"), [], false⟩),
      ("count", ⟨.count, none, [], true⟩),
      ("mentees", ⟨.array, some (.ofText "mentor"), [("id", .ofText "_id")], false⟩),
      ("mentor", ⟨.object, some (.ofText "mentor"), [("name", .ofText "name")], false⟩),
      ("oldest", ⟨.max, some (.ofText "age"), [], false⟩)]

theorem ofSpec_everyColumn :
    ∃ sel, everyColumn.IsOrdered ∧ everyColumn.compile peopleSchema {} "Person" = .ok sel ∧
      ∃ d, ofSpec peopleSchema "Person" everyColumn = .ok d ∧
        (sel.columns.map Column.carrier).Nodup ∧
        (Dict.keys d.columns).Perm (sel.columns.map (·.carrier.name)) ∧
        List.Forall₂ (fun name column => outputVariable name = .ok column.carrier ∧
          ∃ c, Dict.get? column.carrier.name d.columns = some c ∧ c.field = name ∧
            c.kind.Fits column) everyColumn.columnNames sel.columns := by
  have hordered : everyColumn.IsOrdered := by
    constructor <;> unfold Dict.IsSorted <;> decide
  exact ⟨_, hordered, rfl, ofSpec_of_compile hordered rfl⟩

end Decoder

end DocGraph
