import DocGraph.Proofs.Compile.Keys
import DocGraph.Proofs.Dict
import DocGraph.Proofs.Sparql.Solution
import DocGraph.Results.Decoder

/-!
# Decoding the keys of documents

The decoder of a query for some keys of the documents of a model (`ofSpec_ofKeys`), and
the document that it makes of a row: every key has the value of its column, unless that
is blank, and there are no others (`exists_decode`).
-/

namespace DocGraph

open Json (Value)
open Rdf (Term Variable)
open Sparql (Solution)

/-- What the values of a property are. -/
def Property.valueKind (p : Property) : ValueKind :=
  match p.kind with
  | .scalar kind => .scalar kind
  | .relation related | .inverse related _ => .reference related

namespace StoredKey

/-- What the values of the key are. -/
def valueKind (m : Model) (k : StoredKey) : ValueKind :=
  match k.target with
  | .identity => .reference m.name
  | .type => .type
  | .property p => p.valueKind

/-- What the column of the key holds. -/
def columnKind (m : Model) (k : StoredKey) : ColumnKind :=
  if k.isMany then .values (k.valueKind m) else .value (k.valueKind m)

/-- How the column of the key is decoded. -/
def decoded (m : Model) (k : StoredKey) : DecodedColumn :=
  ⟨k.name, k.columnKind m, .ascending⟩

end StoredKey

namespace Decoder

/-- The decoder of some keys. -/
def ofKeys (s : Schema) (m : Model) (keys : List StoredKey) : Decoder :=
  ⟨s, Dict.ofEntries (keys.map fun k => (k.name, k.decoded m))⟩

variable {s : Schema} {m : Model} {k : StoredKey} {keys : List StoredKey}

theorem ofPath_key (hm : s.model? m.name = some m) (hk : k.IsOf m) :
    ValueKind.ofPath s m.name k.path.path = .ok (k.valueKind m) := by
  have hterminal : (k.resolved m).terminal? = some ⟨m, k.target⟩ := rfl
  rw [ValueKind.ofPath, StoredKey.resolve_path hm hk, Outcome.ok_bind, hterminal,
    StoredKey.valueKind]
  cases k.target with
  | identity => rfl
  | type => rfl
  | property p =>
    dsimp only [Property.valueKind]
    cases p.kind <;> rfl

theorem ofSelector_key (hm : s.model? m.name = some m) (hk : k.IsOf m) :
    ColumnKind.ofSelector s m.name k.selector = .ok (k.columnKind m) := by
  rw [StoredKey.selector, StoredKey.columnKind]
  by_cases hmany : k.isMany = true
  · rw [if_pos hmany, if_pos hmany, ColumnKind.ofSelector, ofPath_key hm hk]
    rfl
  · rw [if_neg hmany, if_neg hmany, ColumnKind.ofSelector, ofPath_key hm hk]
    rfl

/-- A query for keys is decoded key by key. -/
theorem ofSpec_ofKeys (hm : s.model? m.name = some m) (hkeys : ∀ k ∈ keys, k.IsOf m)
    (hne : keys ≠ []) :
    ofSpec s m.name (Spec.ofKeys (keys.map StoredKey.name)) = .ok (ofKeys s m keys) := by
  set fields : Dict Selector := keys.map fun k : StoredKey => (k.name, k.selector) with hfields
  have hcolumns : fields.foldlM (fun columns e => do
        addColumn { fields := fields } columns e.1
          (← ColumnKind.ofSelector s m.name e.2)) [] =
      .ok (Dict.ofEntries (keys.map fun k => (k.name, k.decoded m))) := by
    rw [hfields, List.foldlM_map, Dict.ofEntries, List.foldl_map]
    refine Outcome.foldlM_eq_ok (fun (k : StoredKey) (hk : k ∈ keys) columns => ?_) _
    have houtput : outputVariable k.name = .ok (k.var .output) :=
      fieldVariable_of_isFieldSegment (hkeys k hk).isFieldSegment
    dsimp only
    rw [ofSelector_key hm (hkeys k hk), Outcome.ok_bind, addColumn, houtput, Outcome.ok_bind]
    rw [StoredKey.var, variableName_output]
    rfl
  rw [ofSpec, StoredKey.normalized_ofKeys hm hkeys hne, Outcome.ok_bind, hcolumns]
  rfl

/-! ## Rows -/

/-- A value, unless it is blank. -/
def present (out : Option Value) : Option Value :=
  out.filter (!isBlank ·)

theorem eq_of_present_eq_some {v w : Value} (h : present (some v) = some w) : v = w :=
  Option.some.inj (Option.filter_eq_some_iff.mp h).1

theorem get?_columns (hdistinct : (keys.map StoredKey.name).Nodup) (hk : k ∈ keys) :
    Dict.get? k.name (ofKeys s m keys).columns = some (k.decoded m) := by
  refine Dict.get?_ofEntries ?_ (List.mem_map.mpr ⟨k, hk, rfl⟩)
  rw [List.map_map]
  exact hdistinct

/-- The document with the value of a key, if there is one. -/
def withKey (document : Document) (key : String) (out : Option Value) : Document :=
  out.elim document fun w => Dict.insert key w document

theorem isSorted_withKey {document : Document} (h : Dict.IsSorted document) (key : String)
    (out : Option Value) : Dict.IsSorted (withKey document key out) := by
  cases out with
  | none => exact h
  | some w => exact Dict.isSorted_insert h

theorem get?_withKey {document : Document} {key : String} (h : Dict.get? key document = none)
    (out : Option Value) : Dict.get? key (withKey document key out) = out := by
  cases out with
  | none => exact h
  | some w => exact Dict.get?_insert_self key w document

theorem get?_withKey_of_ne {key other : String} (h : key ≠ other) (document : Document)
    (out : Option Value) :
    Dict.get? other (withKey document key out) = Dict.get? other document := by
  cases out with
  | none => rfl
  | some w => exact Dict.get?_insert_of_ne h w document

/-- A column of one field has its value at this field, unless that is blank. -/
theorem addBinding_eq_ok {d : Decoder} {document : Document} {v : Variable} {t : Term}
    {c : DecodedColumn} {out : Option Value} (hc : Dict.get? v.name d.columns = some c)
    (hfield : isFieldSegment c.field = true) (hout : d.columnValue c t = .ok out) :
    d.addBinding document v t =
      .ok (withKey document c.field (present out)) := by
  unfold addBinding
  rw [hc]
  dsimp only
  rw [hout, Outcome.ok_bind]
  cases out with
  | none => rfl
  | some w =>
    rw [split_of_isFieldSegment hfield]
    unfold insertValue present
    cases hblank : isBlank w <;> simp [hblank, Option.filter, Document.insertNested, withKey]

/-- A row with a column for every key is decoded to a document with the values of these
columns. -/
theorem exists_decode {d : Decoder}
    (hcolumns : ∀ k ∈ keys, Dict.get? k.name d.columns = some (k.decoded m))
    (hkeys : ∀ k ∈ keys, k.IsOf m) (hdistinct : (keys.map StoredKey.name).Nodup) {row : Solution}
    {reads : StoredKey → Option Value → Prop}
    (h : ∀ k ∈ keys, ∃ t out, row (k.var .output) = some t ∧
      d.columnValue (k.decoded m) t = .ok out ∧ reads k (present out)) :
    ∃ result, d.decode (row.row (keys.map (·.var .output))) = .ok result ∧ Dict.IsSorted result ∧
      (∀ k ∈ keys, reads k (Dict.get? k.name result)) ∧
      ∀ key ∉ keys.map StoredKey.name, Dict.get? key result = none := by
  have hfold (document : Document) (hsorted : Dict.IsSorted document)
      (hnew : ∀ k ∈ keys, Dict.get? k.name document = none) :
      ∃ result, (row.row (keys.map (·.var .output))).foldlM
          (fun document e => d.addBinding document e.1 e.2) document = .ok result ∧
        Dict.IsSorted result ∧ (∀ k ∈ keys, reads k (Dict.get? k.name result)) ∧
        ∀ key ∉ keys.map StoredKey.name, Dict.get? key result = Dict.get? key document := by
    induction keys generalizing document with
    | nil => exact ⟨document, rfl, hsorted, fun _ hk => absurd hk List.not_mem_nil, fun _ _ => rfl⟩
    | cons k rest ih =>
      rw [List.forall_mem_cons] at hcolumns hkeys h hnew
      rw [List.map_cons, List.nodup_cons] at hdistinct
      obtain ⟨t, out, hrow, hout, hreads⟩ := h.1
      have hname : (k.var .output).name = k.name := variableName_output k.name
      have hstep : d.addBinding document (k.var .output) t =
          .ok (withKey document k.name (present out)) :=
        addBinding_eq_ok (hname ▸ hcolumns.1) hkeys.1.isFieldSegment hout
      have hne {k' : StoredKey} (hk' : k' ∈ rest) : k.name ≠ k'.name := fun he =>
        hdistinct.1 (he ▸ List.mem_map_of_mem hk')
      obtain ⟨result, hresult, hsorted', hrest, hother⟩ :=
        ih hcolumns.2 hkeys.2 hdistinct.2 h.2 (withKey document k.name (present out))
          (isSorted_withKey hsorted _ _) fun k' hk' => by
            rw [get?_withKey_of_ne (hne hk'), hnew.2 k' hk']
      refine ⟨result, ?_, hsorted', List.forall_mem_cons.mpr ⟨?_, hrest⟩, fun key hkey => ?_⟩
      · have hcons : row.row ((k :: rest).map (·.var .output)) =
            (k.var .output, t) :: row.row (rest.map (·.var .output)) := by
          simp [Solution.row, hrow]
        rw [hcons, List.foldlM_cons]
        dsimp only
        rw [hstep, Outcome.ok_bind, hresult]
      · rw [hother k.name hdistinct.1, get?_withKey hnew.1]
        exact hreads
      · rw [List.map_cons, List.mem_cons, not_or] at hkey
        rw [hother key hkey.2, get?_withKey_of_ne (Ne.symm hkey.1)]
  obtain ⟨result, hresult, hsorted, hreads, hother⟩ := hfold [] List.Pairwise.nil fun k _ => rfl
  exact ⟨result, hresult, hsorted, hreads, hother⟩

end Decoder

end DocGraph
