import DocGraph.Proofs.Results.Stored
import DocGraph.Proofs.Schema.Identities
import DocGraph.Proofs.Sparql.Numbers
import DocGraph.Proofs.Update.Replace
import DocGraph.Proofs.Update.Statements

/-!
# Saving a document and reading it back

A document that is saved to an empty store and queried for its keys comes back as the one
row of the query, up to what storing it changes (`Document.IsReadAs`): scalars are the
decoded literals that they are stored as, the elements of an array have lost their order
and those with the text of another one, and blank values are left out. The main result is
`Target.save_then_read`. An array is not read as it was given when it has an empty text,
or when it is a single value that is not in an array (`Target.not_read_as_given`).
-/

namespace DocGraph

open Json (Value)
open Rdf (Dataset Graph Iri Statement Term rdfType)
open Sparql (Solution Store)

/-- Whether the properties that a model stores itself have predicates of their own. -/
structure Model.HasOwnPredicates (m : Model) : Prop where
  injective : ∀ {key key' p p'}, m.property? key = some p → m.property? key' = some p' →
    p.isInverse = false → p'.isInverse = false → p.predicate = p'.predicate → key = key'
  ne_type : ∀ {key p}, m.property? key = some p → p.isInverse = false → p.predicate ≠ rdfType

namespace Document

/-- Whether a document has an identifier, a model, and else properties only that the model
stores itself. A reference is an identifier, and only an array may be null. -/
structure IsOf (m : Model) (d : Document) : Prop where
  nodup_keys : (Dict.keys d).Nodup
  identity : ∃ id, d.identity = .ok ⟨m.name, id⟩
  property : ∀ {key v}, (key, v) ∈ d → key ≠ idKey → key ≠ typeKey →
    ∃ p, m.property? key = some p ∧ p.isInverse = false ∧ (p.isArray = false → v.isNull = false) ∧
      ∀ values, valuesOf key p v = .ok values → ∀ w ∈ values, p.Admits w

/-- Whether a document is what another one is read as after it has been stored. -/
structure IsReadAs (s : Schema) (m : Model) (d result : Document) : Prop where
  sorted : Dict.IsSorted result
  id : Dict.get? idKey result = Dict.get? idKey d
  type : Dict.get? typeKey result = Dict.get? typeKey d
  property : ∀ {key v p}, (key, v) ∈ d → m.property? key = some p →
    ∃ values, valuesOf key p v = .ok values ∧
      p.ReadsAs s m.name key values (Dict.get? key result)
  other : ∀ key ∉ Dict.keys d, Dict.get? key result = none

theorem identity_eq_ok {d : Document} {model id : String} (h : d.identity = .ok ⟨model, id⟩) :
    Dict.get? typeKey d = some (.str model) ∧ Dict.get? idKey d = some (.str id) ∧ model ≠ "" ∧
      id ≠ "" := by
  have hname {key text : String} (hn : name? key d = some text) :
      Dict.get? key d = some (.str text) ∧ text ≠ "" := by
    obtain ⟨hbind, hne⟩ := Option.filter_eq_some_iff.mp hn
    obtain ⟨v, hv, hstr⟩ := Option.bind_eq_some_iff.mp hbind
    cases v with
    | str s =>
      obtain rfl := Option.some.inj hstr
      exact ⟨hv, of_decide_eq_true hne⟩
    | _ => cases hstr
  unfold identity at h
  cases htype : name? typeKey d with
  | none => simp [htype] at h
  | some model' =>
    cases hid : name? idKey d with
    | none => simp [htype, hid] at h
    | some id' =>
      simp only [htype, hid, Except.ok.injEq, Identity.mk.injEq] at h
      obtain ⟨rfl, rfl⟩ := h
      exact ⟨(hname htype).1, (hname hid).1, (hname htype).2, (hname hid).2⟩

end Document

/-- The class of a model is read as the model, if no other model has it. -/
theorem Schema.modelNameOrUri_classUri {s : Schema} {m : Model}
    (hclasses : (s.models.map (·.classUri)).Nodup) (hm : m ∈ s.models) :
    s.modelNameOrUri m.classUri.text = m.name := by
  rw [modelNameOrUri, modelOfClass?_of_mem hclasses hm]
  rfl

/-! ## The keys of a document -/

/-- Whether a key of a document has the terms that are stored for it. -/
inductive StoredKey.Stores (s : Schema) (m : Model) (d : Document) (subject : Iri) :
    StoredKey → Prop where
  | identity : Stores s m d subject ⟨idKey, .identity, [.iri subject]⟩
  | type : Stores s m d subject ⟨typeKey, .type, [.iri m.classUri]⟩
  | property {key v p values terms} (mem : (key, v) ∈ d) (hp : m.property? key = some p)
    (hforward : p.isInverse = false) (hvalues : Document.valuesOf key p v = .ok values)
    (hterms : List.Forall₂ (fun w t => s.encode m.name (.ofText key) w = .ok t) values terms)
    (hsingle : p.isArray = false → ∃ w, values = [w]) (hadmits : ∀ w ∈ values, p.Admits w) :
    Stores s m d subject ⟨key, .property p, terms⟩

namespace StoredKey

variable {s : Schema} {m : Model} {d : Document} {subject : Iri} {statements : List (Iri × Term)}
  {k : StoredKey} {keys : List StoredKey} {key : String}

/-- Every key of a document that has statements has the terms of some of them. -/
theorem exists_stores (hm : s.model? m.name = some m) (hd : d.IsOf m)
    (hstatements : d.statements s m.name = .ok statements) (hkey : key ∈ Dict.keys d) :
    ∃ k : StoredKey, k.Stores s m d subject ∧ k.name = key := by
  by_cases hid : key = idKey
  · exact ⟨_, .identity, hid.symm⟩
  by_cases htype : key = typeKey
  · exact ⟨_, .type, htype.symm⟩
  obtain ⟨⟨key, v⟩, hmem, rfl⟩ := List.mem_map.mp hkey
  obtain ⟨p, hp, hforward, hnull, hadmits⟩ := hd.property hmem hid htype
  obtain ⟨sts, hsts⟩ := Document.exists_statementsOf hstatements hmem
  obtain ⟨values, terms, hvalues, hterms, -⟩ := (Document.statementsOf_eq_ok hid htype
    (Schema.property_eq_ok.mpr ⟨m, hm, hp⟩) hforward).mp hsts
  exact ⟨_, .property hmem hp hforward hvalues hterms
    (fun hone => ⟨v, Document.valuesOf_single hvalues hone (hnull hone)⟩)
    (hadmits values hvalues), rfl⟩

theorem Stores.isOf (hs : s.WellFormed) (hm : s.model? m.name = some m)
    (h : k.Stores s m d subject) : k.IsOf m := by
  cases h with
  | identity => exact ⟨rfl, rfl, nofun⟩
  | type => exact ⟨rfl, rfl, nofun⟩
  | property hmem hp hforward hvalues hterms hsingle hadmits =>
    refine ⟨Schema.isFieldSegment_of_property hs hm hp, Schema.lastTarget?_of_property hs hm hp,
      fun p' hp' => ?_⟩
    obtain rfl := StepTarget.property.inj hp'
    exact hforward

/-- The identifier is one value. -/
theorem Stores.isMany_of_idKey (hs : s.WellFormed) (hm : s.model? m.name = some m)
    (h : k.Stores s m d subject) (hname : k.name = idKey) : k.isMany = false := by
  cases h with
  | identity => rfl
  | type => rfl
  | property hmem hp =>
    exact absurd hname
      (not_reserved_of_isIdentifier (hs.isIdentifier_of_property (Schema.mem_of_model? hm) hp)).1

/-- The statements of a property are those of its values. -/
theorem Stores.mem_statements {p : Property} {t : Term} (hs : s.WellFormed)
    (hm : s.model? m.name = some m) (hown : m.HasOwnPredicates) (hd : d.IsOf m)
    (hstatements : d.statements s m.name = .ok statements) (h : k.Stores s m d subject)
    (hp : k.target = .property p) : (p.predicate, t) ∈ statements ↔ t ∈ k.terms := by
  rw [Document.mem_statements hstatements, Document.hasStatement_iff]
  cases h with
  | identity => cases hp
  | type => cases hp
  | @property key v p' values terms hmem hp' hforward hvalues hterms hsingle hadmits =>
    obtain rfl := StepTarget.property.inj hp
    constructor
    · rintro (⟨c, -, hpredicate, -⟩ | ⟨key', v', hmem', hstates⟩)
      · exact absurd hpredicate (hown.ne_type hp' hforward)
      · obtain ⟨p, hproperty, hforward', hpredicate, w, hw, henc⟩ := hstates.exists_property
        obtain ⟨m', hm', hprop⟩ := Schema.property_eq_ok.mp hproperty
        obtain rfl : m' = m := Option.some.inj (hm'.symm.trans hm)
        obtain rfl := hown.injective hprop hp' hforward' hforward hpredicate
        obtain rfl := Option.some.inj (hprop.symm.trans hp')
        obtain rfl := (Prod.mk.inj (List.inj_on_of_nodup_map hd.nodup_keys hmem' hmem rfl)).2
        obtain ⟨t', ht', henc'⟩ :=
          exists_right_of_mem hterms ((Document.mem_valuesOf hvalues).mpr hw)
        obtain rfl := Except.ok.inj (henc'.symm.trans henc)
        exact ht'
    · intro ht
      obtain ⟨w, hw, henc⟩ := exists_left_of_mem hterms ht
      obtain ⟨hid, htype⟩ :=
        not_reserved_of_isIdentifier (hs.isIdentifier_of_property (Schema.mem_of_model? hm) hp')
      exact .inr ⟨key, v, hmem, hid, htype, p', Schema.property_eq_ok.mpr ⟨m, hm, hp'⟩, hforward,
        rfl, w, (Document.mem_valuesOf hvalues).mp hw, henc⟩

/-- A key with one value has one term. -/
theorem Stores.exists_term (h : k.Stores s m d subject) (hone : k.isMany = false) :
    ∃ t, k.terms = [t] := by
  cases h with
  | identity => exact ⟨_, rfl⟩
  | type => exact ⟨_, rfl⟩
  | property hmem hp hforward hvalues hterms hsingle hadmits =>
    obtain ⟨w, rfl⟩ := hsingle hone
    obtain ⟨t', rest, -, hrest, hlist⟩ := List.forall₂_cons_left_iff.mp hterms
    rw [List.forall₂_nil_left_iff.mp hrest] at hlist
    exact ⟨t', hlist⟩

theorem Stores.ne_blank {t : Term} (h : k.Stores s m d subject) (ht : t ∈ k.terms) :
    ∀ name, t ≠ .blank name := by
  cases h with
  | identity =>
    rw [List.mem_singleton.mp ht]
    exact fun _ => Term.noConfusion
  | type =>
    rw [List.mem_singleton.mp ht]
    exact fun _ => Term.noConfusion
  | property hmem hp hforward hvalues hterms hsingle hadmits =>
    obtain ⟨w, -, henc⟩ := exists_left_of_mem hterms ht
    exact Schema.encode_ne_blank henc

/-- What is saved to an empty store is the statements about the document. -/
theorem mem_graph_insertion (t : Target) (store : Store) (x : Term) (p : Iri) (y : Term) :
    ⟨x, p, y⟩ ∈ ((t.insertion subject statements).apply store ∅).graph t.graph ↔
      x = .iri subject ∧ (p, y) ∈ statements := by
  rw [Dataset.mem_graph, Target.mem_apply_insertion, Target.quadsOf, List.mem_toFinset,
    List.mem_map, or_iff_right (Finset.notMem_empty _)]
  constructor
  · rintro ⟨⟨p', y'⟩, hmem, he⟩
    cases he
    exact ⟨rfl, hmem⟩
  · rintro ⟨rfl, hmem⟩
    exact ⟨_, hmem, rfl⟩

/-- The graph of a document that has been saved to an empty store holds just the document. -/
theorem isStored_of_stores {t : Target} (hs : t.schema.WellFormed)
    (hm : t.schema.model? m.name = some m) (hown : m.HasOwnPredicates) (hd : d.IsOf m)
    (hstatements : d.statements t.schema m.name = .ok statements)
    (hkeys : ∀ k ∈ keys, k.Stores t.schema m d subject) (hdistinct : (keys.map name).Nodup)
    (store : Store) :
    IsStored m (((t.insertion subject statements).apply store ∅).graph t.graph) (.iri subject)
      keys := by
  have hclass : t.schema.classUri m.name = .ok m.classUri := by
    simp only [Schema.classUri, Schema.model_eq_ok.mpr hm, Outcome.ok_bind, Outcome.pure_eq]
  refine ⟨fun k hk => (hkeys k hk).isOf hs hm, hdistinct, fun x => ?_, fun k hk p hp x y => ?_,
    fun k hk hp => ?_, fun k hk hp => ?_, fun k hk hone => (hkeys k hk).exists_term hone,
    fun k hk y hy => (hkeys k hk).ne_blank hy⟩
  · rw [mem_graph_insertion, Document.mem_statements hstatements]
    exact and_iff_left (.type hclass)
  · rw [mem_graph_insertion, (hkeys k hk).mem_statements hs hm hown hd hstatements hp]
  · cases hkeys k hk with
    | identity => rfl
    | type => cases hp
    | property => cases hp
  · cases hkeys k hk with
    | identity => cases hp
    | type => rfl
    | property => cases hp

/-- Whether a value is what a key of a document reads as. -/
structure IsReadAs (s : Schema) (m : Model) (d : Document) (k : StoredKey) (out : Option Value) :
    Prop where
  id : k.name = idKey → out = Dict.get? idKey d
  type : k.name = typeKey → out = Dict.get? typeKey d
  property : ∀ {v p}, (k.name, v) ∈ d → m.property? k.name = some p →
    ∃ values, Document.valuesOf k.name p v = .ok values ∧ p.ReadsAs s m.name k.name values out

theorem idKey_ne_typeKey : idKey ≠ typeKey := by
  decide

theorem present_str {text : String} (h : text ≠ "") :
    Decoder.present (some (.str text)) = some (.str text) := by
  simp [Decoder.present, isBlank, h]

/-- The column of a property is decoded to what its values read as. -/
theorem exists_propertyValue (dec : Decoder) (hs : dec.schema.WellFormed)
    (hm : dec.schema.model? m.name = some m) {p : Property} (hp : m.property? key = some p)
    (hforward : p.isInverse = false) {values : List Value} {terms : List Term}
    (hterms : List.Forall₂ (fun w t => dec.schema.encode m.name (.ofText key) w = .ok t) values
      terms)
    (hsingle : p.isArray = false → ∃ w, values = [w]) (hadmits : ∀ w ∈ values, p.Admits w)
    {t : Term} (ht : HasColumn ⟨key, .property p, terms⟩ t) :
    ∃ out, dec.columnValue (decoded m ⟨key, .property p, terms⟩) t = .ok out ∧
      p.ReadsAs dec.schema m.name key values (Decoder.present out) := by
  cases hmany : p.isArray with
  | true =>
    have hkey : StoredKey.isMany ⟨key, .property p, terms⟩ = true := hmany
    rw [HasColumn, if_pos hkey] at ht
    obtain ⟨texts, hdistinct, htexts, rfl⟩ := ht
    obtain ⟨out, hout, hreads⟩ :=
      Decoder.exists_values hs hm hp hforward hadmits hterms hdistinct htexts hmany
    refine ⟨out, ?_, hreads⟩
    rw [decoded, columnKind, if_pos hkey]
    exact hout
  | false =>
    have hkey : ¬StoredKey.isMany ⟨key, .property p, terms⟩ = true := Bool.eq_false_iff.mp hmany
    rw [HasColumn, if_neg hkey] at ht
    obtain ⟨w, rfl⟩ := hsingle hmany
    rw [show terms = [t] from ht, List.forall₂_cons] at hterms
    obtain ⟨out, w', hout, hreads, hpresent⟩ :=
      Decoder.exists_value hs hm hp hforward (hadmits w (List.mem_singleton_self w)) hterms.1
    refine ⟨out, ?_, ?_⟩
    · rw [decoded, columnKind, if_neg hkey]
      exact hout
    · rw [Property.ReadsAs, hmany, if_neg Bool.false_ne_true]
      exact ⟨w, w', rfl, hreads, hpresent⟩

/-- The column of a key is decoded to what the key reads as. -/
theorem Stores.exists_columnValue (dec : Decoder) (hs : dec.schema.WellFormed)
    (hclasses : (dec.schema.models.map (·.classUri)).Nodup)
    (hm : dec.schema.model? m.name = some m) (hd : d.IsOf m) {id : String}
    (hid : d.identity = .ok ⟨m.name, id⟩) (huri : dec.schema.instanceUri m.name id = .ok subject)
    (h : k.Stores dec.schema m d subject) {t : Term} (ht : k.HasColumn t) :
    ∃ out, dec.columnValue (k.decoded m) t = .ok out ∧
      k.IsReadAs dec.schema m d (Decoder.present out) := by
  obtain ⟨htype, hidentity, hmodel, hne⟩ := Document.identity_eq_ok hid
  have hreserved {key : String} {p : Property} (hp : m.property? key = some p) :
      key ≠ idKey ∧ key ≠ typeKey :=
    not_reserved_of_isIdentifier (hs.isIdentifier_of_property (Schema.mem_of_model? hm) hp)
  cases h with
  | identity =>
    obtain rfl : Term.iri subject = t := (List.cons.inj ht).1
    refine ⟨some (.str id), ?_, fun _ => ?_, fun he => absurd he idKey_ne_typeKey,
      fun _ hp => absurd rfl (hreserved hp).1⟩
    · exact congrArg (fun v => Except.ok (some v)) (Decoder.reference_of_instanceUri huri hne)
    · rw [present_str hne, hidentity]
  | type =>
    obtain rfl : Term.iri m.classUri = t := (List.cons.inj ht).1
    refine ⟨some (.str m.name), ?_, fun he => absurd he.symm idKey_ne_typeKey, fun _ => ?_,
      fun _ hp => absurd rfl (hreserved hp).2⟩
    · exact congrArg (fun name => Except.ok (some (Value.str name)))
        (Schema.modelNameOrUri_classUri hclasses (Schema.mem_of_model? hm))
    · rw [present_str hmodel, htype]
  | @property key v p values terms hmem hp hforward hvalues hterms hsingle hadmits =>
    obtain ⟨out, hout, hreads⟩ :=
      exists_propertyValue dec hs hm hp hforward hterms hsingle hadmits ht
    refine ⟨out, hout, fun hid => absurd hid (hreserved hp).1,
      fun htype => absurd htype (hreserved hp).2, fun {v' p'} hmem' hp' => ?_⟩
    -- the document has the key once
    obtain rfl := (Prod.mk.inj (List.inj_on_of_nodup_map hd.nodup_keys hmem' hmem rfl)).2
    obtain rfl := Option.some.inj (hp'.symm.trans hp)
    exact ⟨values, hvalues, hreads⟩

end StoredKey

namespace Target

/-- Whether a query for some keys of the documents in a dataset has one row, and a document
that the row is decoded to. -/
def ReadsBack (t : Target) (model : String) (names : List String) (options : CompileOptions)
    (store : Store) (data : Dataset) (result : Document) : Prop :=
  ∃ selection decoder row,
    (Spec.ofKeys names).compile t.schema options model = .ok selection ∧
    Decoder.ofSpec t.schema model (Spec.ofKeys names) = .ok decoder ∧
    selection.pattern.eval { store := store, data := data } = {row} ∧
    decoder.decode (row.row (selection.columns.map Column.carrier)) = .ok result

variable {t : Target} {m : Model} {d result result' : Document} {u : Sparql.Update}
  {names : List String} {options : CompileOptions} {store : Store} {data : Dataset}

theorem ReadsBack.unique (h : t.ReadsBack m.name names options store data result)
    (h' : t.ReadsBack m.name names options store data result') : result = result' := by
  obtain ⟨selection, decoder, row, hselection, hdecoder, hrow, hresult⟩ := h
  obtain ⟨selection', decoder', row', hselection', hdecoder', hrow', hresult'⟩ := h'
  obtain rfl := Except.ok.inj (hselection.symm.trans hselection')
  obtain rfl := Except.ok.inj (hdecoder.symm.trans hdecoder')
  obtain rfl := Multiset.singleton_inj.mp (hrow.symm.trans hrow')
  exact Except.ok.inj (hresult.symm.trans hresult')

/-- What a document reads as in a schema that is well formed. -/
theorem read_of_save (hs : t.schema.WellFormed)
    (hclasses : (t.schema.models.map (·.classUri)).Nodup)
    (hm : t.schema.model? m.name = some m) (hown : m.HasOwnPredicates) (hd : d.IsOf m)
    (hsave : t.save d = .ok u) (hnames : names.Perm (Dict.keys d)) (options : CompileOptions)
    (hgraph : options.graph = t.graph) (store : Store) :
    ∃ result, t.ReadsBack m.name names options store (u.apply store ∅) result ∧
      d.IsReadAs t.schema m result := by
  obtain ⟨subject, statements, ⟨identity, hidentity, huri, hstatements⟩, rfl⟩ := save_eq_ok.mp hsave
  obtain ⟨id, hid⟩ := hd.identity
  obtain rfl := Except.ok.inj (hidentity.symm.trans hid)
  obtain ⟨htype, hidentity, -, -⟩ := Document.identity_eq_ok hid
  obtain ⟨keys, hkeys, rfl⟩ : ∃ keys : List StoredKey,
      (∀ k ∈ keys, k.Stores t.schema m d subject) ∧ keys.map StoredKey.name = names :=
    exists_map_eq fun name hname =>
      StoredKey.exists_stores hm hd hstatements (hnames.subset hname)
  have hdistinct : (keys.map StoredKey.name).Nodup := hnames.nodup_iff.mpr hd.nodup_keys
  have hof : ∀ k ∈ keys, k.IsOf m := fun k hk => (hkeys k hk).isOf hs hm
  have hkey {key : String} (hkey : key ∈ Dict.keys d) : ∃ k ∈ keys, k.name = key :=
    List.mem_map.mp (hnames.mem_iff.mpr hkey)
  obtain ⟨idField, hidField, hidName⟩ := hkey (Dict.mem_keys_of_get? hidentity)
  obtain ⟨typeField, htypeField, htypeName⟩ := hkey (Dict.mem_keys_of_get? htype)
  have hsingles : StoredKey.singles keys ≠ [] := List.ne_nil_of_mem
    (StoredKey.mem_singles.mpr ⟨hidField, (hkeys idField hidField).isMany_of_idKey hs hm hidName⟩)
  have hne : keys ≠ [] := List.ne_nil_of_mem hidField
  have hstored := StoredKey.isStored_of_stores hs hm hown hd hstatements hkeys hdistinct store
  obtain ⟨row, hrow, hcolumns⟩ := StoredKey.eval_ofKeys hstored hsingles
  have hdecoded : ∀ k ∈ keys, ∃ x out, row (k.var .output) = some x ∧
      (Decoder.ofKeys t.schema m keys).columnValue (k.decoded m) x = .ok out ∧
      k.IsReadAs t.schema m d (Decoder.present out) := fun k hk => by
    obtain ⟨x, hx, hcolumn⟩ := hcolumns k hk
    obtain ⟨out, hout, hreads⟩ := (hkeys k hk).exists_columnValue
      (Decoder.ofKeys t.schema m keys) hs hclasses hm hd hid huri hcolumn
    exact ⟨x, out, hx, hout, hreads⟩
  obtain ⟨result, hresult, hsorted, hreads, hother⟩ := Decoder.exists_decode
    (fun k hk => Decoder.get?_columns hdistinct hk) hof hdistinct hdecoded
  refine ⟨result, ⟨_, _, row, Spec.compile_ofKeys hm hof hne hdistinct options,
    Decoder.ofSpec_ofKeys hm hof hne, hgraph ▸ hrow, ?_⟩, hsorted, ?_, ?_, ?_, ?_⟩
  · rw [StoredKey.carriers_ofKeys]
    exact hresult
  · exact hidName ▸ (hreads idField hidField).id hidName
  · exact htypeName ▸ (hreads typeField htypeField).type htypeName
  · intro key v p hmem hp
    obtain ⟨k, hk, rfl⟩ := hkey (List.mem_map.mpr ⟨_, hmem, rfl⟩)
    exact (hreads k hk).property hmem hp
  · exact fun key hnone => hother key fun hsome => hnone (hnames.mem_iff.mp hsome)

/-- A document that is saved to an empty store is the one row of the query for its keys, and
is decoded to what it reads as. -/
theorem save_then_read {definition : SchemaDefinition} (hbuilt : definition.build = .ok t.schema)
    (hclasses : (t.schema.models.map (·.classUri)).Nodup)
    (hm : t.schema.model? m.name = some m) (hown : m.HasOwnPredicates) (hd : d.IsOf m)
    (hsave : t.save d = .ok u) (hnames : names.Perm (Dict.keys d)) (options : CompileOptions)
    (hgraph : options.graph = t.graph) (store : Store) :
    ∃ result, t.ReadsBack m.name names options store (u.apply store ∅) result ∧
      d.IsReadAs t.schema m result :=
  read_of_save (SchemaDefinition.build_wellFormed hbuilt) hclasses hm hown hd hsave hnames options
    hgraph store

end Target

/-! ## A document of a person -/

namespace Document

/-- A person with one friend, who is not in an array, and with an empty nickname. -/
def alice : Document :=
  [("_id", .str "alice"), ("_type", .str "Person"), ("friends", .str "bob"),
    ("nicknames", .arr [.str "", .str "al"])]

theorem isOf_alice : alice.IsOf person where
  nodup_keys := by decide
  identity := ⟨"alice", rfl⟩
  property := by
    intro key v hmem hid htype
    simp only [alice, List.mem_cons, Prod.mk.injEq, List.not_mem_nil, or_false] at hmem
    rcases hmem with ⟨rfl, -⟩ | ⟨rfl, -⟩ | ⟨rfl, rfl⟩ | ⟨rfl, rfl⟩
    · exact absurd rfl hid
    · exact absurd rfl htype
    · refine ⟨_, rfl, rfl, fun hsingle => absurd hsingle (by decide),
        fun values hvalues w hw _ => ?_⟩
      obtain rfl := Except.ok.inj hvalues
      exact ⟨"bob", by decide, List.mem_singleton.mp hw⟩
    · exact ⟨_, rfl, rfl, fun hsingle => absurd hsingle (by decide),
        fun _ _ _ _ hrelation => absurd hrelation (by decide)⟩

end Document

theorem hasOwnPredicates_person : person.HasOwnPredicates where
  injective := by
    have hinjective : ∀ e ∈ person.properties, ∀ e' ∈ person.properties,
        e.2.predicate = e'.2.predicate → e.1 = e'.1 := by
      decide
    intro key key' p p' hp hp' _ _
    exact hinjective _ (Dict.mem_of_get? hp) _ (Dict.mem_of_get? hp')
  ne_type := by
    have hne : ∀ e ∈ person.properties, e.2.predicate ≠ rdfType := by
      decide
    intro key p hp _
    exact hne _ (Dict.mem_of_get? hp)

/-- The people of the default graph. -/
def Target.ofPeople : Target :=
  ⟨peopleSchema, none⟩

namespace Target

/-- A person whose friend is not in an array is read. -/
theorem save_then_read_alice :
    ∃ u, ofPeople.save Document.alice = .ok u ∧
      ∃ result, ofPeople.ReadsBack "Person" ["nicknames", "_type", "friends", "_id"] {} .numeric
          (u.apply .numeric ∅) result ∧
        Document.alice.IsReadAs peopleSchema person result :=
  ⟨_, rfl, save_then_read people_build (by decide) rfl hasOwnPredicates_person Document.isOf_alice
    rfl (by decide) {} rfl .numeric⟩

end Target

/-- Whether each text of an array is also that of an element of the array that is read. -/
def Document.KeepsTexts (s : Schema) (m : Model) (d result : Document) : Prop :=
  ∀ key values, (key, .arr values) ∈ d → ∀ v ∈ values, ∀ text,
    Property.HasText s m.name key v text →
      ∃ ws, Dict.get? key result = some (.arr ws) ∧ ∃ w ∈ ws, Property.HasText s m.name key w text

/-- Whether each reference is read as its identifier. -/
def Document.KeepsReferences (_ : Schema) (m : Model) (d result : Document) : Prop :=
  ∀ key p id, (key, .str id) ∈ d → m.property? key = some p → p.isRelation = true →
    Dict.get? key result = some (.str id)

namespace Target

/-- Whether every document that is saved to an empty store reads as one that is related to it. -/
def AlwaysReadsAs (related : Schema → Model → Document → Document → Prop) : Prop :=
  ∀ (definition : SchemaDefinition) (t : Target) (m : Model) (d : Document) (u : Sparql.Update)
    (names : List String) (options : CompileOptions) (store : Store),
    definition.build = .ok t.schema → (t.schema.models.map (·.classUri)).Nodup →
    t.schema.model? m.name = some m → m.HasOwnPredicates → d.IsOf m → t.save d = .ok u →
    names.Perm (Dict.keys d) → options.graph = t.graph →
    ∃ result, t.ReadsBack m.name names options store (u.apply store ∅) result ∧
      related t.schema m d result

theorem AlwaysReadsAs.exists_alice {related : Schema → Model → Document → Document → Prop}
    (h : AlwaysReadsAs related) :
    ∃ result, related peopleSchema person Document.alice result ∧
      Document.alice.IsReadAs peopleSchema person result := by
  obtain ⟨u, hsave⟩ : ∃ u, ofPeople.save Document.alice = .ok u := ⟨_, rfl⟩
  obtain ⟨result, hback, hrelated⟩ := h people ofPeople person Document.alice u
    (Dict.keys Document.alice) {} .numeric people_build (by decide) rfl hasOwnPredicates_person
    Document.isOf_alice hsave (List.Perm.refl _) rfl
  obtain ⟨result', hback', hreads⟩ := read_of_save
    (SchemaDefinition.build_wellFormed people_build) (by decide) rfl hasOwnPredicates_person
    Document.isOf_alice hsave (List.Perm.refl _) {} rfl .numeric
  obtain rfl := hback.unique hback'
  exact ⟨result, hrelated, hreads⟩

/-- The nickname of a person that is the empty text is not read, and the friend who is not in an
array is read in one. -/
theorem not_read_as_given :
    ¬AlwaysReadsAs Document.KeepsTexts ∧ ¬AlwaysReadsAs Document.KeepsReferences := by
  refine ⟨fun h => ?_, fun h => ?_⟩
  · obtain ⟨result, hkeeps, hreads⟩ := h.exists_alice
    have hnicknames :
        (("nicknames", .arr [.str "", .str "al"]) : String × Value) ∈ Document.alice := by
      simp [Document.alice]
    obtain ⟨ws, hws, w, hw, t, henc, hempty⟩ := hkeeps _ _ hnicknames (.str "")
      (List.mem_cons_self ..) "" ⟨_, rfl, rfl⟩
    obtain ⟨values, hvalues, texts, ws', -, htexts, hforall, hout⟩ := hreads.property hnicknames rfl
    rw [hws] at hout
    obtain rfl := Value.arr.inj (Decoder.eq_of_present_eq_some hout.symm)
    obtain ⟨text, htext, v, hv, ⟨t', henc', rfl⟩, l, hl, hdecode⟩ := exists_left_of_mem hforall hw
    have hne : t'.lexical ≠ "" := ((htexts _).mp htext).1
    have hv : v = .str "" ∨ v = .str "al" := by
      obtain rfl := Except.ok.inj hvalues
      simpa [Value.isNull] using hv
    rcases hv with rfl | rfl
    · obtain rfl := Except.ok.inj henc'
      exact hne rfl
    · obtain rfl := Except.ok.inj hl
      obtain rfl := Except.ok.inj hdecode
      obtain rfl := Except.ok.inj henc
      exact absurd hempty (by decide)
  · obtain ⟨result, hkeeps, hreads⟩ := h.exists_alice
    have hfriend : (("friends", .str "bob") : String × Value) ∈ Document.alice := by
      simp [Document.alice]
    obtain ⟨values, -, texts, ws, -, -, -, hout⟩ := hreads.property hfriend rfl
    rw [hkeeps _ _ _ hfriend rfl rfl] at hout
    cases Decoder.eq_of_present_eq_some hout.symm

end Target

end DocGraph
