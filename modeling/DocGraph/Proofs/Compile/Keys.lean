import DocGraph.Compile.Query
import DocGraph.Proofs.Column.Variables
import Mathlib.Data.List.Nodup

/-!
# Selecting the keys of documents

What a query for some keys of the documents of a model is compiled to
(`compile_ofKeys`). A key with one value has a hop and a column in the document
pattern, and a key with an array has a packed column with value elements of its own.
-/

namespace DocGraph

open Rdf (Iri Term Variable rdfType)
open Sparql (Expr Node)

/-- A key of a document: what it names, and the terms that are stored for it. -/
structure StoredKey where
  name : String
  target : StepTarget
  terms : List Term

/-- The query for some keys. -/
def Spec.ofKeys (names : List String) : Spec where
  fields := names.map fun name => (name, .scalar (.ofText name))

namespace StoredKey

/-- Whether the key has an array. -/
def isMany (k : StoredKey) : Bool :=
  match k.target with
  | .property p => p.isArray
  | _ => false

/-- The variable of the key with a role. -/
def var (role : Role) (k : StoredKey) : Variable :=
  ⟨variableName role [k.name]⟩

/-- The path of the key. -/
def path (k : StoredKey) : FieldPath :=
  .required ⟨[k.name]⟩

/-- What the path of the key resolves to. -/
def resolved (m : Model) (k : StoredKey) : ResolvedPath :=
  ⟨m, [⟨m, k.target⟩]⟩

/-- The node that the key leads to. -/
def node (m : Model) (k : StoredKey) : Node :=
  match k.target with
  | .identity => rootNode
  | .type => .term (.iri m.classUri)
  | .property _ => .var (k.var .node)

/-- The hop to the node of the key, if it is another one than the document. -/
def hop (k : StoredKey) : List Element :=
  match k.target with
  | .property p => [.statement rootNode p.predicate (.var (k.var .node))]
  | _ => []

/-- The value elements of a packed column. -/
def values (m : Model) (k : StoredKey) : List Element :=
  k.hop ++ [.bind (k.var .encoded) (Projection.encoded (.ofNode (k.node m)))]

/-- The binding of a column in the document pattern. -/
def binding (m : Model) (k : StoredKey) : Element :=
  .bind (k.var .output) (.ofNode (k.node m))

/-- The column of the key. -/
def column (m : Model) (k : StoredKey) : Column :=
  if k.isMany then .packed (k.var .output) (k.var .packed) (k.var .encoded) .values (k.values m)
  else .plain (k.var .output)

/-- The selector that fits the key. -/
def selector (k : StoredKey) : Selector :=
  if k.isMany then .array k.path else .scalar k.path

/-- What the key is compiled to. -/
def compiled (m : Model) (k : StoredKey) : CompiledColumn where
  column := k.column m
  binding := if k.isMany then none else some (k.binding m)
  projected := some k.path.path

/-- The keys with one value. -/
def singles (keys : List StoredKey) : List StoredKey :=
  keys.filter (!·.isMany)

/-- The keys with an array. -/
def manys (keys : List StoredKey) : List StoredKey :=
  keys.filter (·.isMany)

/-- Whether the key is one that documents of a model store themselves. -/
structure IsOf (m : Model) (k : StoredKey) : Prop where
  isFieldSegment : isFieldSegment k.name = true
  lastTarget? : Schema.lastTarget? m k.name = some k.target
  not_inverse : ∀ p, k.target = .property p → p.isInverse = false

end StoredKey

open StoredKey (singles manys)

/-- The selection of some keys of the documents of a model. -/
def Selection.ofKeys (m : Model) (graph : Option Iri) (keys : List StoredKey) : Selection where
  columns := keys.map (·.column m)
  required :=
    .statement rootNode rdfType (.term (.iri m.classUri)) :: (singles keys).flatMap (·.hop)
  bindings := (singles keys).map (·.binding m)
  groupBy := if keys.any (·.isMany) then (singles keys).map (·.var .output) else []
  graph := graph

/-! ## Fields of one segment -/

theorem FieldPath.ofText_of_isFieldSegment {key : String} (h : isFieldSegment key = true) :
    FieldPath.ofText key = .required ⟨[key]⟩ := by
  obtain ⟨c, cs, hcs⟩ := List.exists_cons_of_ne_nil fun he =>
    ne_empty_of_isFieldSegment h (String.toList_eq_nil_iff.mp he)
  have hc : c ≠ optionalMark := fun he =>
    notMem_of_isFieldSegment h (c := optionalMark) (by decide)
      (hcs ▸ he ▸ List.mem_cons_self)
  have hunmarked : unmarked key = key := by
    simp only [unmarked, hcs, hc, if_false]
  have hmarked : isMarked key = false := by
    simp only [isMarked, hcs, List.head?_cons, beq_eq_false_iff_ne, ne_eq, Option.some.injEq, hc,
      not_false_eq_true]
  simp only [ofText, Path.ofText_of_isFieldSegment h, List.map_cons, List.map_nil, hunmarked,
    List.findIdx?_cons, hmarked, List.findIdx?_nil, Option.map_none, required]
  rfl

theorem fieldVariable_of_isFieldSegment {role : Role} {key : String}
    (h : isFieldSegment key = true) :
    fieldVariable role key = .ok ⟨variableName role [key]⟩ := by
  rw [fieldVariable, split_of_isFieldSegment h, variableAt_of_names (.ofKey h)]

/-- Elements with different keys are all the first ones. -/
theorem firstByKey_of_nodup {α β : Type} [DecidableEq β] {key : α → β} {as : List α}
    (h : (as.map key).Nodup) : firstByKey key as = as := by
  induction as with
  | nil => rfl
  | cons a rest ih =>
    rw [List.map_cons, List.nodup_cons] at h
    rw [firstByKey, ih h.2, List.filter_eq_self.mpr]
    intro b hb
    exact decide_eq_true fun he => h.1 (he ▸ List.mem_map_of_mem hb)

/-! ## Compiling keys -/

namespace StoredKey

variable {s : Schema} {m : Model} {k : StoredKey} {keys : List StoredKey}

theorem resolve_path (hm : s.model? m.name = some m) (hk : k.IsOf m) :
    s.resolve m.name k.path.path = .ok (k.resolved m) := by
  have hr := Schema.resolve_of_lastTarget? hm hk.isFieldSegment hk.lastTarget?
  rwa [Path.ofText_of_isFieldSegment hk.isFieldSegment] at hr

theorem nodeAt_path (hk : k.IsOf m) :
    PathPrefix.nodeAt k.path.path (k.resolved m) 1 = .ok (k.node m) := by
  have hstep : (k.resolved m).steps[0]? = some ⟨m, k.target⟩ := rfl
  unfold PathPrefix.nodeAt node
  simp only [hstep]
  cases k.target with
  | identity => rfl
  | type => rfl
  | property p =>
    simp only [reduceCtorEq, and_false, if_false]
    change (variableAt .node [k.name]).map Node.var = _
    rw [variableAt_of_names (.ofKey hk.isFieldSegment)]
    rfl

/-- The only prefix of the path of a key is its hop. -/
theorem hop_path (hk : k.IsOf m) :
    PathPrefix.hop s ⟨k.path.path, k.resolved m, 1⟩ = .ok k.hop := by
  have hnode := nodeAt_path hk
  have hforward := hk.not_inverse
  obtain ⟨name, target, terms⟩ := k
  cases target with
  | identity => rfl
  | type => rfl
  | property p =>
    have hp := hforward p rfl
    have horigin : p.origin? = none := by
      unfold Property.isInverse at hp
      unfold Property.origin?
      cases hk : p.kind with
      | inverse _ _ => simp [hk] at hp
      | scalar _ | relation _ => rfl
    have hroot : PathPrefix.isRootType ⟨(path ⟨name, .property p, terms⟩).path,
        resolved m ⟨name, .property p, terms⟩, 1⟩ = false := rfl
    have hstep : (resolved m ⟨name, .property p, terms⟩).steps[0]? = some ⟨m, .property p⟩ := rfl
    rw [PathPrefix.hop, hroot, if_neg Bool.false_ne_true]
    dsimp only
    rw [hstep]
    dsimp only
    rw [hnode]
    simp only [PathPrefix.nodeAt, DocGraph.hop, horigin, hop, node, Outcome.ok_bind]

theorem hopsAfter_path (hm : s.model? m.name = some m) (hk : k.IsOf m) :
    Projection.hopsAfter s m.name k.path.path 0 = .ok k.hop := by
  rw [Projection.hopsAfter, resolve_path hm hk, Outcome.ok_bind]
  change PathPrefix.hops s [⟨k.path.path, k.resolved m, 1⟩] = _
  rw [PathPrefix.hops, List.mapM_cons, hop_path hk]
  simp

theorem valueAt_path (hm : s.model? m.name = some m) (hk : k.IsOf m) :
    Projection.valueAt s m.name k.path.path = .ok (.ofNode (k.node m)) := by
  rw [Projection.valueAt, resolve_path hm hk, Outcome.ok_bind]
  change (PathPrefix.nodeAt k.path.path (k.resolved m) 1 >>= fun n => pure (Expr.ofNode n)) = _
  rw [nodeAt_path hk]
  rfl

/-- A key is compiled to its column and, if it has one value, to its binding. -/
theorem fieldColumn_selector (hm : s.model? m.name = some m) (hk : k.IsOf m) :
    Projection.fieldColumn s m.name k.name k.selector = .ok (k.compiled m) := by
  have houtput : outputVariable k.name = .ok (k.var .output) :=
    fieldVariable_of_isFieldSegment hk.isFieldSegment
  have hencoded : fieldVariable .encoded k.name = .ok (k.var .encoded) :=
    fieldVariable_of_isFieldSegment hk.isFieldSegment
  have hpacked : fieldVariable .packed k.name = .ok (k.var .packed) :=
    fieldVariable_of_isFieldSegment hk.isFieldSegment
  rw [Projection.fieldColumn, houtput, Outcome.ok_bind]
  unfold selector compiled column
  by_cases hmany : k.isMany = true
  · simp only [if_pos hmany]
    rw [Projection.valuesColumn, hencoded, hopsAfter_path hm hk, valueAt_path hm hk, hpacked]
    rfl
  · simp only [if_neg hmany]
    rw [Projection.scalarColumn, valueAt_path hm hk]
    rfl

theorem normalizedSelector_path (hm : s.model? m.name = some m) (hk : k.IsOf m) :
    Spec.normalizedSelector s m.name (.scalar k.path) = .ok k.selector := by
  rw [Spec.normalizedSelector, resolve_path hm hk, Outcome.ok_bind, Outcome.pure_eq]
  obtain ⟨name, target, terms⟩ := k
  cases target with
  | identity => rfl
  | type => rfl
  | property p =>
    simp only [resolved, PathStep.property?, List.any_cons, List.any_nil, Option.map_some,
      Option.getD_some, Bool.or_false, selector, isMany]
    rfl

/-! ## Compiling lists of keys -/

theorem singles_cons (k : StoredKey) (rest : List StoredKey) :
    singles (k :: rest) = if k.isMany then singles rest else k :: singles rest := by
  rw [singles, List.filter_cons]
  cases k.isMany <;> rfl

theorem targets_selectors (hm : s.model? m.name = some m) (hkeys : ∀ k ∈ keys, k.IsOf m) :
    Projection.targets s m.name (keys.map fun k => (k.name, k.selector)) =
      .ok ((singles keys).map fun k => ⟨k.path, k.resolved m⟩) := by
  induction keys with
  | nil => rfl
  | cons k rest ih =>
    rw [List.forall_mem_cons] at hkeys
    rw [List.map_cons, singles_cons]
    by_cases hmany : k.isMany = true
    · rw [selector, if_pos hmany, if_pos hmany, Projection.targets, ih hkeys.2]
      intro _ _ h
      cases h
    · rw [selector, if_neg hmany, if_neg hmany, Projection.targets, resolve_path hm hkeys.1,
        Outcome.ok_bind, ih hkeys.2]
      rfl

/-- Keys with different names need one hop each. -/
theorem requiredHops_targets (hdistinct : (keys.map name).Nodup) :
    Projection.requiredHops (keys.map fun k => ⟨k.path, k.resolved m⟩) =
      keys.map fun k => ⟨k.path.path, k.resolved m, 1⟩ := by
  have hrequired (k : StoredKey) (hk : k ∈ keys) :
      k.path.path ∈ Projection.requiredPaths (keys.map fun k => ⟨k.path, k.resolved m⟩) := by
    rw [Projection.requiredPaths, List.flatMap_map]
    exact List.mem_flatMap.mpr ⟨k, hk, List.mem_singleton_self _⟩
  have hflat : ((keys.map fun k => FieldTarget.mk k.path (k.resolved m)).flatMap fun t =>
      (PathPrefix.ofPath t.path t.resolved 0).filter (·.key ∈
        Projection.requiredPaths (keys.map fun k => ⟨k.path, k.resolved m⟩))) =
      keys.map fun k => ⟨k.path.path, k.resolved m, 1⟩ := by
    rw [List.flatMap_map]
    refine (List.flatMap_congr fun k hk => ?_).trans List.map_eq_flatMap.symm
    refine List.filter_eq_self.mpr fun p hp => ?_
    rw [List.mem_singleton.mp hp]
    exact decide_eq_true (hrequired k hk)
  rw [Projection.requiredHops, hflat]
  refine firstByKey_of_nodup ?_
  rw [List.map_map]
  refine List.Nodup.of_map (fun p : Path => p.segments.headD "") ?_
  rw [List.map_map]
  exact hdistinct

theorem hops_prefixes (hkeys : ∀ k ∈ keys, k.IsOf m) :
    PathPrefix.hops s (keys.map fun k => ⟨k.path.path, k.resolved m, 1⟩) =
      .ok (keys.flatMap (·.hop)) := by
  have hmapM : (keys.map fun k => PathPrefix.mk k.path.path (k.resolved m) 1).mapM
      (PathPrefix.hop s) = .ok (keys.map (·.hop)) := by
    rw [Outcome.mapM_eq_ok, List.forall₂_map_left_iff, List.forall₂_map_right_iff,
      List.forall₂_same]
    exact fun k hk => hop_path (hkeys k hk)
  rw [PathPrefix.hops, hmapM, Outcome.ok_bind, Outcome.pure_eq, List.flatMap]

theorem optionalElements_targets (keys : List StoredKey) :
    Projection.optionalElements s (keys.map fun k => ⟨k.path, k.resolved m⟩) = .ok [] := by
  have hnone : (keys.map fun k => FieldTarget.mk k.path (k.resolved m)).filterMap
      (·.field.optionalGroup?) = [] := by
    rw [List.filterMap_map, List.filterMap_eq_nil_iff]
    exact fun k _ => rfl
  rw [Projection.optionalElements, Projection.optionalGroups, hnone, firstByKey]
  rfl

theorem filterMap_binding (keys : List StoredKey) :
    (keys.map (·.compiled m)).filterMap (·.binding) = (singles keys).map (·.binding m) := by
  induction keys with
  | nil => rfl
  | cons k rest ih =>
    rw [List.map_cons, List.filterMap_cons, ih, singles_cons]
    cases hmany : k.isMany <;> simp [compiled, hmany]

theorem filterMap_key? (keys : List StoredKey) :
    (keys.map (·.column m)).filterMap Column.key? = (singles keys).map (·.var .output) := by
  induction keys with
  | nil => rfl
  | cons k rest ih =>
    rw [List.map_cons, List.filterMap_cons, ih, singles_cons]
    cases hmany : k.isMany <;> simp [column, Column.key?, hmany]

theorem any_isAggregated (keys : List StoredKey) :
    (keys.map (·.column m)).any Column.isAggregated = keys.any (·.isMany) := by
  have hcolumn (k : StoredKey) : (k.column m).isAggregated = k.isMany := by
    cases hmany : k.isMany <;> simp [column, Column.isAggregated, hmany]
  rw [List.any_map]
  exact congrArg keys.any (funext hcolumn)

/-- The columns of keys have their hops and bindings in the document pattern. -/
theorem compile_selectors (hm : s.model? m.name = some m) (hkeys : ∀ k ∈ keys, k.IsOf m)
    (hdistinct : (keys.map name).Nodup) :
    Projection.compile s m.name { fields := keys.map fun k => (k.name, k.selector) } = .ok {
      required := (singles keys).flatMap (·.hop)
      optionals := []
      bindings := (singles keys).map (·.binding m)
      columns := keys.map (·.column m)
      projected := (keys.map (·.compiled m)).filterMap (·.projected) } := by
  have hsingles : ∀ k ∈ singles keys, k.IsOf m := fun k hk => hkeys k (List.mem_of_mem_filter hk)
  have hnames : ((singles keys).map name).Nodup :=
    hdistinct.sublist (List.filter_sublist.map name)
  have hcolumns : (keys.map fun k => (k.name, k.selector)).mapM (fun e =>
      Projection.fieldColumn s m.name e.1 e.2) = .ok (keys.map (·.compiled m)) := by
    rw [Outcome.mapM_eq_ok, List.forall₂_map_left_iff, List.forall₂_map_right_iff,
      List.forall₂_same]
    exact fun k hk => fieldColumn_selector hm (hkeys k hk)
  unfold Projection.compile
  rw [targets_selectors hm hkeys, Outcome.ok_bind,
    requiredHops_targets hnames, hops_prefixes hsingles, Outcome.ok_bind,
    optionalElements_targets, Outcome.ok_bind, hcolumns, Outcome.ok_bind]
  simp only [List.mapM_nil, Outcome.pure_eq, Outcome.ok_bind, List.append_nil, filterMap_binding]
  rw [List.map_map]
  rfl

/-- The names of the keys of a query are names of fields. -/
theorem validateNames_ofKeys (hkeys : ∀ k ∈ keys, k.IsOf m) :
    (Spec.ofKeys (keys.map name)).validateNames = .ok () := by
  have hfield : (Spec.ofKeys (keys.map name)).names.find? (!isFieldName ·) = none := by
    rw [List.find?_eq_none]
    intro key hkey
    have hnames : (Spec.ofKeys (keys.map name)).names = keys.map name := by
      simp [Spec.names, Spec.ofKeys, Dict.keys, Function.comp_def]
    rw [hnames] at hkey
    obtain ⟨k, hk, rfl⟩ := List.mem_map.mp hkey
    have hsegment := (hkeys k hk).isFieldSegment
    simp [isFieldName, split_of_isFieldSegment hsegment, hsegment]
  have hboth : (Dict.keys (Spec.ofKeys (keys.map name)).fields).find?
      (Dict.contains · (Spec.ofKeys (keys.map name)).aggregates) = none :=
    List.find?_eq_none.mpr fun _ _ => Bool.false_ne_true
  rw [Spec.validateNames, hfield]
  dsimp only
  rw [hboth]

/-- A query for keys has selectors that fit them. -/
theorem normalized_ofKeys (hm : s.model? m.name = some m) (hkeys : ∀ k ∈ keys, k.IsOf m)
    (hne : keys ≠ []) :
    (Spec.ofKeys (keys.map name)).normalized s m.name =
      .ok { fields := keys.map fun k => (k.name, k.selector) } := by
  have hfields : (Spec.ofKeys (keys.map name)).fields =
      keys.map fun k => (k.name, .scalar k.path) := by
    rw [Spec.ofKeys, List.map_map]
    refine List.map_congr_left fun k hk => ?_
    rw [Function.comp_apply, FieldPath.ofText_of_isFieldSegment (hkeys k hk).isFieldSegment, path]
  have hselectors : Spec.normalizedFields s m.name (keys.map fun k => (k.name, .scalar k.path)) =
      .ok (keys.map fun k => (k.name, k.selector)) := by
    rw [Spec.normalizedFields, Outcome.mapM_eq_ok, List.forall₂_map_left_iff,
      List.forall₂_map_right_iff, List.forall₂_same]
    intro k hk
    dsimp only
    rw [normalizedSelector_path hm (hkeys k hk), Outcome.ok_bind, Outcome.pure_eq]
  have hsome : (keys.map fun k => (k.name, Selector.scalar k.path)).isEmpty = false := by
    rw [List.isEmpty_eq_false_iff, ne_eq, List.map_eq_nil_iff]
    exact hne
  rw [Spec.normalized, hfields, hsome, Bool.false_and]
  simp only [Bool.false_eq_true, if_false, hselectors, Outcome.ok_bind, Outcome.pure_eq]
  rfl

end StoredKey

/-- The query for some keys of the documents of a model is compiled to the selection of these
keys. -/
theorem Spec.compile_ofKeys {s : Schema} {m : Model} {keys : List StoredKey}
    (hm : s.model? m.name = some m) (hkeys : ∀ k ∈ keys, k.IsOf m) (hne : keys ≠ [])
    (hdistinct : (keys.map StoredKey.name).Nodup) (options : CompileOptions) :
    (Spec.ofKeys (keys.map StoredKey.name)).compile s options m.name =
      .ok (.ofKeys m options.graph keys) := by
  have hclass : s.classUri m.name = .ok m.classUri := by
    simp only [Schema.classUri, Schema.model, hm]
    rfl
  rw [Spec.compile, StoredKey.validateNames_ofKeys hkeys, Outcome.ok_bind,
    StoredKey.normalized_ofKeys hm hkeys hne, Outcome.ok_bind, hclass, Outcome.ok_bind]
  simp only [checkSort, List.find?_nil, Outcome.ok_bind,
    StoredKey.compile_selectors hm hkeys hdistinct, filterElements, List.mapM_nil,
    Outcome.pure_eq, StoredKey.any_isAggregated, StoredKey.filterMap_key?]
  rfl

end DocGraph
