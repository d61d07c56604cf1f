import DocGraph.Proofs.Compile.VariableRules

/-!
# Self-contained columns

The value elements of a column are matched apart from the documents and joined with them
afterwards, so what the column reads has to be bound among these elements. A path binds the
document that it starts from if it leaves it, and the node that it leads to
(`Projection.path_cases`). So a column reads nothing that it does not bind, but for the packed
columns that pack the document and nothing beyond it (`isSelfContained_iff_of_compile`): these
read the document itself, which no solution of their value elements binds.
-/

namespace DocGraph

open Rdf (Variable)
open Sparql (Aggregate Context Expr Reduction Solution)

variable {s : Schema} {model name : String} {path property : Path} {r : ResolvedPath}
  {value : Expr} {es : List Element} {w : Variable} {c : CompiledColumn}

/-! ## Paths that stay at the document -/

namespace Path

/-- Whether a path is that of the document itself or of its identifier. -/
def IsDocument (p : Path) : Prop :=
  p.segments = [] ∨ p.segments = [idKey]

/-- Whether a path does not leave the document: its value is the document or its type. -/
def Stays (p : Path) : Prop :=
  p.IsDocument ∨ p.segments = [typeKey]

theorem IsDocument.ne_type (h : path.IsDocument) : path.segments ≠ [typeKey] := by
  rcases h with h | h <;> rw [h] <;> decide

end Path

/-- Whether one of several paths is that of the document, and none of them leaves it. -/
def EndAtDocument (paths : List Path) : Prop :=
  (∃ path ∈ paths, path.IsDocument) ∧ ∀ path ∈ paths, path.Stays

theorem not_endAtDocument_nil : ¬EndAtDocument [] := by
  rintro ⟨⟨path, hpath, -⟩, -⟩
  cases hpath

/-- A path stays at the document, or its first step is a property. -/
theorem Schema.resolve_cases (h : s.resolve model path = .ok r) :
    path.segments = [] ∨ ∃ owner target, r.steps[0]? = some ⟨owner, target⟩ ∧
      (path.segments = [idKey] ∧ target = .identity ∨
        path.segments = [typeKey] ∧ target = .type ∨ ¬path.Stays ∧ ∃ p, target = .property p) := by
  obtain ⟨-, hsteps⟩ := resolve_eq_ok.mp h
  cases hsegments : path.segments with
  | nil => exact .inl rfl
  | cons segment rest =>
    rw [hsegments] at hsteps
    obtain ⟨target, further, htarget, hr, hrest⟩ := stepsFrom_cons hsteps
    refine .inr ⟨r.root, target, by rw [hr]; rfl, ?_⟩
    have hleaves (hreserved : segment ≠ idKey ∧ segment ≠ typeKey) : ¬path.Stays := by
      rintro ((hpath | hpath) | hpath) <;> rw [hsegments] at hpath
      · cases hpath
      · exact hreserved.1 (List.cons.inj hpath).1
      · exact hreserved.2 (List.cons.inj hpath).1
    rcases hrest with ⟨rfl, -⟩ | ⟨p, m, hp, -, -⟩
    · rcases lastTarget?_cases htarget with ⟨rfl, rfl⟩ | ⟨rfl, rfl⟩ | ⟨hreserved, hp⟩
      · exact .inl ⟨rfl, rfl⟩
      · exact .inr (.inl ⟨rfl, rfl⟩)
      · exact .inr (.inr ⟨hleaves hreserved, hp⟩)
    · obtain rfl := Option.some.inj (htarget.symm.trans (lastTarget?_of_relation? hp))
      rcases lastTarget?_cases htarget with ⟨-, hne⟩ | ⟨-, hne⟩ | ⟨hreserved, -⟩
      · cases hne
      · cases hne
      · exact .inr (.inr ⟨hleaves hreserved, p.1, rfl⟩)

/-- The hops of a path whose first step is a property start from the document. -/
theorem PathPrefix.root_mem_variables_of_hops {owner : Model} {p : Property}
    (hr : s.resolve model path = .ok r) (hstep : r.steps[0]? = some ⟨owner, .property p⟩)
    (h : hops s (ofPath path r 0) = .ok es) : rootVariable ∈ elementVariables es := by
  have hlength : 0 < path.length := by
    rw [Path.length, ← Schema.length_of_resolve hr]
    exact (List.getElem?_eq_some_iff.mp hstep).1
  obtain ⟨ess, hess, rfl⟩ := hops_eq_ok h
  obtain ⟨first, hmem, hfirst⟩ :=
    exists_right_of_mem hess (mem_ofPath.mpr ⟨1, Nat.zero_lt_one, hlength, rfl⟩)
  refine mem_elementVariables_flatten.mpr ⟨first, hmem, ?_⟩
  have hroot : isRootType ⟨path, r, 1⟩ = false := by
    rw [isRootType, List.head?_eq_getElem?, hstep]
    rfl
  rw [hop, hroot, if_neg Bool.false_ne_true] at hfirst
  simp only [hstep] at hfirst
  obtain ⟨subject, hsubject, hfirst⟩ := Outcome.bind_eq_ok.mp hfirst
  obtain ⟨object, -, hfirst⟩ := Outcome.bind_eq_ok.mp hfirst
  obtain rfl : rootNode = subject := Except.ok.inj hsubject
  have hid : StepTarget.property p ≠ .identity := fun h => by cases h
  rcases hop_cases hfirst hid with ⟨p, rfl, -⟩ | ⟨p, classUri, rfl, -⟩ <;>
    simp [elementVariables, Element.variables, Element.statement, Sparql.Triple.variables,
      Sparql.Node.variables, rootNode]

/-- The node at the end of a path that stays at the document is the document or its type. -/
theorem PathPrefix.nodeAt_length_cases {node : Sparql.Node} (hr : s.resolve model path = .ok r)
    (h : nodeAt path r path.length = .ok node) :
    path.IsDocument ∧ node = rootNode ∨ path.segments = [typeKey] ∧ (∃ i, node = .term (.iri i)) ∨
      ¬path.Stays ∧ ∃ owner p, r.steps[0]? = some ⟨owner, .property p⟩ := by
  rcases Schema.resolve_cases hr with hpath | ⟨owner, target, hstep, hfirst⟩
  · rw [Path.length, hpath] at h
    exact .inl ⟨.inl hpath, (Except.ok.inj h).symm⟩
  rcases hfirst with ⟨hpath, rfl⟩ | ⟨hpath, rfl⟩ | ⟨hleaves, p, rfl⟩
  · rw [Path.length, hpath, List.length_singleton, nodeAt, hstep] at h
    exact .inl ⟨.inr hpath, (Except.ok.inj h).symm⟩
  · rw [Path.length, hpath, List.length_singleton, nodeAt, hstep] at h
    exact .inr (.inl ⟨hpath, _, (Except.ok.inj h).symm⟩)
  · exact .inr (.inr ⟨hleaves, owner, p, hstep⟩)

namespace Projection

variable {hops : List Element}

section Values

variable (hs : s.WellFormed) (hvalue : valueAt s model path = .ok value)
  (hhops : hopsAfter s model path 0 = .ok hops)
include hs hvalue hhops

/-- The value at a path is the document, its type, or a node. The hops to a node bind it, and
the document that they start from. -/
theorem path_cases :
    path.IsDocument ∧ value = .var rootVariable ∧ hops = [] ∨
      path.segments = [typeKey] ∧ value.reads = [] ∧ hops = [] ∨
      ¬path.Stays ∧ rootVariable ∈ elementVariables hops ∧
        ∃ v, value = .var v ∧ v ∈ elementVariables hops ∧ v ≠ rootVariable := by
  have hcases := value_cases hs hvalue hhops
  obtain ⟨r, node, hr, hnode, rfl⟩ := valueAt_eq_ok hvalue
  have hhops := hops_of_hopsAfter hr hhops
  rcases PathPrefix.nodeAt_length_cases hr hnode with ⟨hpath, rfl⟩ | ⟨hpath, i, rfl⟩ |
    ⟨hleaves, owner, p, hstep⟩
  · rcases hcases with ⟨v, hv, -, hne⟩ | ⟨hnil, -⟩
    · exact absurd (Expr.var.inj hv).symm hne
    · exact .inl ⟨hpath, rfl, hnil⟩
  · rcases hcases with ⟨v, hv, -⟩ | ⟨hnil, -⟩
    · cases hv
    · exact .inr (.inl ⟨hpath, rfl, hnil⟩)
  · have hroot := PathPrefix.root_mem_variables_of_hops hr hstep hhops
    rcases hcases with ⟨v, hv, -, hne⟩ | ⟨rfl, -⟩
    · refine .inr (.inr ⟨hleaves, hroot, v, hv, ?_, hne⟩)
      rcases PathPrefix.nodeAt_cases hnode with rfl | ⟨i, rfl⟩ |
        ⟨m, step, u, hm, hstep, hid, htype, hu, rfl⟩
      · exact absurd (Expr.var.inj hv).symm hne
      · cases hv
      · obtain rfl := Expr.var.inj hv
        exact PathPrefix.mem_variables_of_hops hhops
          (PathPrefix.mem_ofPath.mpr ⟨m + 1, Nat.succ_pos m, hm, rfl⟩) hstep hid htype hu
    · cases hroot

theorem root_mem_reads_iff : rootVariable ∈ value.reads ↔ path.IsDocument := by
  rcases path_cases hs hvalue hhops with ⟨hpath, rfl, -⟩ | ⟨hpath, hreads, -⟩ |
    ⟨hleaves, -, v, rfl, -, hne⟩
  · exact iff_of_true (List.mem_singleton_self _) hpath
  · rw [hreads]
    exact iff_of_false List.not_mem_nil fun hdocument => hdocument.ne_type hpath
  · exact iff_of_false (fun hmem => hne (List.mem_singleton.mp hmem).symm)
      fun hdocument => hleaves (.inl hdocument)

theorem root_mem_hops_iff : rootVariable ∈ elementVariables hops ↔ ¬path.Stays := by
  rcases path_cases hs hvalue hhops with ⟨hpath, -, rfl⟩ | ⟨hpath, -, rfl⟩ | ⟨hleaves, hroot, -⟩
  · exact iff_of_false List.not_mem_nil fun hleaves => hleaves (.inl hpath)
  · exact iff_of_false List.not_mem_nil fun hleaves => hleaves (.inr hpath)
  · exact iff_of_true hroot hleaves

theorem eq_root_or_mem_hops (hw : w ∈ value.reads) :
    w = rootVariable ∨ w ∈ elementVariables hops := by
  rcases path_cases hs hvalue hhops with ⟨-, rfl, -⟩ | ⟨-, hreads, -⟩ | ⟨-, -, v, rfl, hv, -⟩
  · exact .inl (List.mem_singleton.mp hw)
  · rw [hreads] at hw
    cases hw
  · exact .inr (List.mem_singleton.mp hw ▸ hv)

end Values

/-- What several values read and the hops to them do not bind is the document: where a value is
the document and no path leaves it. -/
theorem unbound_iff (hs : s.WellFormed) {paths : List Path} {ends : List (Expr × List Element)}
    (h : List.Forall₂ (fun path e => valueAt s model path = .ok e.1 ∧
      hopsAfter s model path 0 = .ok e.2) paths ends) :
    ((∃ e ∈ ends, w ∈ e.1.reads) ∧ ∀ e ∈ ends, w ∉ elementVariables e.2) ↔
      w = rootVariable ∧ EndAtDocument paths := by
  constructor
  · rintro ⟨⟨e, he, hw⟩, hunbound⟩
    obtain ⟨path, hpath, hvalue, hhops⟩ := exists_left_of_mem h he
    obtain rfl := (eq_root_or_mem_hops hs hvalue hhops hw).resolve_right (hunbound e he)
    refine ⟨rfl, ⟨path, hpath, (root_mem_reads_iff hs hvalue hhops).mp hw⟩, fun other hother => ?_⟩
    obtain ⟨e', he', hvalue', hhops'⟩ := exists_right_of_mem h hother
    by_contra hleaves
    exact hunbound e' he' ((root_mem_hops_iff hs hvalue' hhops').mpr hleaves)
  · rintro ⟨rfl, ⟨path, hpath, hdocument⟩, hstays⟩
    obtain ⟨e, he, hvalue, hhops⟩ := exists_right_of_mem h hpath
    refine ⟨⟨e, he, (root_mem_reads_iff hs hvalue hhops).mpr hdocument⟩, fun e' he' hroot => ?_⟩
    obtain ⟨other, hother, hvalue', hhops'⟩ := exists_left_of_mem h he'
    exact (root_mem_hops_iff hs hvalue' hhops').mp hroot (hstays other hother)

end Projection

/-! ## What columns read -/

/-- The variables that an aggregate reads. -/
def Sparql.Aggregate.reads : Aggregate → List Variable
  | .countAll _ => []
  | .reduce _ e _ => e.reads

/-- Whether an element matches something: a triple, or an optional block of triples. -/
def Element.IsMatch : Element → Prop
  | .optional block => ∀ e ∈ block, e.IsTriple
  | e => e.IsTriple

/-- Whether a column reads a variable that it does not bind before: in a binding among its value
elements, or in its aggregate. Without value elements the aggregate may read the document. -/
def Reduced.ReadsUnbound (r : Reduced) (w : Variable) : Prop :=
  (∃ before v e after, r.values = before ++ .bind v e :: after ∧ w ∈ e.reads ∧
    ∀ b ∈ before, b.IsMatch → w ∉ b.variables) ∨
  w ∈ r.aggregate.reads ∧ w ∉ elementVariables r.values ∧ ¬(r.values = [] ∧ w = rootVariable)

/-- Whether a column binds all that it reads. -/
def Reduced.IsSelfContained (r : Reduced) : Prop :=
  ∀ w, ¬r.ReadsUnbound w

/-- The paths whose values an aggregate packs. -/
def Aggregation.packedPaths (a : Aggregation) : List Path :=
  match a.property, a.aggregator with
  | some path, .array => if a.members.isEmpty then [path] else a.members.map (path ++ ·.2)
  | some path, .object => a.members.map (path ++ ·.2)
  | _, _ => []

/-- The paths whose values a column packs. -/
def ColumnSource.packedPaths : ColumnSource → List Path
  | .field (.scalar _) => []
  | .field (.array selected) => [selected.path]
  | .field (.objects property members) => members.map (property.path ++ ·.2)
  | .aggregate a => a.packedPaths

/-- Whether a column packs the document itself, and no value that is beyond it. -/
def ColumnSource.PacksDocument (source : ColumnSource) : Prop :=
  EndAtDocument source.packedPaths

theorem Element.IsTriple.isMatch {e : Element} (h : e.IsTriple) : e.IsMatch := by
  cases e with
  | optional => exact h.elim
  | _ => exact h

/-- A binding after elements that match something is the only one of them. -/
theorem eq_of_append_bind {v v' : Variable} {e e' : Expr} {before after : List Element}
    (hes : ∀ b ∈ es, b.IsMatch) (h : es ++ [.bind v e] = before ++ .bind v' e' :: after) :
    es = before ∧ e = e' := by
  induction es generalizing before with
  | nil =>
    cases before with
    | nil => exact ⟨rfl, (Element.bind.inj (List.cons.inj h).1).2⟩
    | cons b before => simp at h
  | cons b es ih =>
    rw [List.forall_mem_cons] at hes
    cases before with
    | nil =>
      rw [(List.cons.inj h).1] at hes
      exact hes.1.elim
    | cons b' before =>
      obtain ⟨rfl, hrest⟩ := List.cons.inj h
      obtain ⟨rfl, he⟩ := ih hes.2 hrest
      exact ⟨rfl, he⟩

/-- A packed column reads in its one binding what the elements before it do not bind. -/
theorem readsUnbound_packed {raw encoded : Variable} {packing : Reduction} {e : Expr}
    (hes : ∀ b ∈ es, b.IsMatch) :
    (⟨raw, .reduce packing (.var encoded) true, es ++ [.bind encoded e]⟩ :
      Reduced).ReadsUnbound w ↔ w ∈ e.reads ∧ w ∉ elementVariables es := by
  constructor
  · rintro (⟨before, v, e', after, hvalues, hw, hunbound⟩ | ⟨hw, hunbound, -⟩)
    · obtain ⟨rfl, rfl⟩ := eq_of_append_bind hes hvalues
      refine ⟨hw, fun hmem => ?_⟩
      obtain ⟨b, hb, hvariable⟩ := mem_elementVariables.mp hmem
      exact hunbound b hb (hes b hb) hvariable
    · refine absurd ?_ hunbound
      rw [elementVariables_append, List.mem_append]
      exact .inr hw
  · rintro ⟨hw, hunbound⟩
    refine .inl ⟨es, encoded, e, [], rfl, hw, fun b hb _ hvariable => hunbound ?_⟩
    exact mem_elementVariables.mpr ⟨b, hb, hvariable⟩

/-- Whether a column packs the values of some paths under a name: its binding reads nothing that
the elements before it do not bind, but for the document if no path leaves it. -/
def Column.Packs (name : String) (paths : List Path) (column : Column) : Prop :=
  ∃ output raw encoded packing es e, fieldVariable .encoded name = .ok encoded ∧
    column = .packed output raw encoded packing (es ++ [.bind encoded e]) ∧
    (∀ b ∈ es, b.IsMatch) ∧
    ∀ w, w ∈ e.reads ∧ w ∉ elementVariables es ↔ w = rootVariable ∧ EndAtDocument paths

theorem Sparql.Expr.reads_encoded (value : Expr) :
    (Projection.encoded value).reads = value.reads := by
  simp only [Projection.encoded, Expr.reads, Expr.readsAll, List.append_nil]

theorem packs_valuesColumn (hs : s.WellFormed) {output : Variable}
    (h : Projection.valuesColumn s model name output path = .ok c) :
    c.column.Packs name [path] := by
  obtain ⟨encoded, packed, hops, value, hencoded, -, hhops, hvalue, rfl⟩ :=
    Projection.valuesColumn_eq_ok h
  refine ⟨output, packed, encoded, .values, hops, Projection.encoded value, hencoded, rfl,
    fun b hb => (Projection.isTriple_hopsAfter hhops b hb).isMatch, fun w => ?_⟩
  have hunbound := Projection.unbound_iff (w := w) hs
    (List.Forall₂.cons ⟨hvalue, hhops⟩ .nil : List.Forall₂ _ [path] [(value, hops)])
  rw [← hunbound, Expr.reads_encoded]
  simp only [List.mem_singleton, exists_eq_left, forall_eq]

theorem mem_readsAll_fragments {index : Nat} {parts : List (String × Expr)} :
    w ∈ Expr.readsAll (objectFragments index parts) ↔ ∃ part ∈ parts, w ∈ part.2.reads := by
  induction parts generalizing index with
  | nil => simp [objectFragments, Expr.string, Expr.readsAll, Expr.reads]
  | cons part rest ih =>
    rw [objectFragments, List.exists_mem_cons_iff, ← @ih (index + 1)]
    simp only [Expr.readsAll, Expr.string, Expr.reads, Expr.reads_encoded, List.append_nil,
      List.nil_append, List.mem_append]

theorem packs_objectsColumn (hs : s.WellFormed) {output : Variable} {members : Dict Path}
    (h : Projection.objectsColumn s model name output property members = .ok c) :
    c.column.Packs name (members.map (property ++ ·.2)) := by
  obtain ⟨encoded, packed, hops, compiled, hencoded, -, hhops, hcompiled, rfl⟩ :=
    Projection.objectsColumn_eq_ok h
  refine ⟨output, packed, encoded, .objects, hops ++ CompiledMember.blocks compiled, _, hencoded,
    rfl, fun b hb => ?_, fun w => ?_⟩
  · rcases List.mem_append.mp hb with hb | hb
    · exact (Projection.isTriple_hopsAfter hhops b hb).isMatch
    · obtain ⟨m, hm, rfl⟩ := List.mem_map.mp hb
      obtain ⟨member, -, hof⟩ := exists_left_of_mem hcompiled (List.mem_of_mem_filter hm)
      exact Projection.isTriple_hopsAfter hof.hops
  -- the hops to the objects come before those of every member, which makes its chain whole
  have hends : List.Forall₂ (fun path e => Projection.valueAt s model path = .ok e.1 ∧
      Projection.hopsAfter s model path 0 = .ok e.2) (members.map (property ++ ·.2))
      (compiled.map fun m => (m.value, hops ++ m.hops)) := by
    rw [List.forall₂_map_left_iff, List.forall₂_map_right_iff]
    exact hcompiled.imp fun m c hc => ⟨hc.value, Projection.hopsAfter_append hhops hc.hops⟩
  rw [← Projection.unbound_iff (w := w) hs hends, Expr.reads, mem_readsAll_fragments,
    elementVariables_append, List.mem_append, mem_variables_blocks]
  simp only [List.mem_map, exists_exists_and_eq_and, forall_exists_index, and_imp,
    forall_apply_eq_imp_iff₂, elementVariables_append, List.mem_append]
  -- without members nothing is read, and the hops to the objects bind the document all the same
  refine and_congr_right fun hreads => ?_
  obtain ⟨m, hm, -⟩ := hreads
  constructor
  · intro hunbound m' hm' hw
    exact hunbound (hw.imp_right fun hw => ⟨m', hm', hw⟩)
  · rintro hunbound (hw | ⟨m', hm', hw⟩)
    · exact hunbound m hm (.inl hw)
    · exact hunbound m' hm' (.inr hw)

/-- A column packs the values of its paths, or it reduces those of one, or nothing. -/
theorem ColumnSource.packs_of_compile (hs : s.WellFormed) {source : ColumnSource}
    (h : source.compile s model name = .ok c) :
    c.column.Packs name source.packedPaths ∨ source.packedPaths = [] ∧
      (c.column.reduced? = none ∨ ∃ output path r distinct,
        Projection.reducedColumn s model output path r distinct = .ok c) := by
  cases source with
  | field selector =>
    obtain ⟨output, -, h⟩ := Outcome.bind_eq_ok.mp h
    cases selector with
    | scalar field =>
      obtain ⟨value, -, h⟩ := Outcome.bind_eq_ok.mp h
      obtain rfl := Except.ok.inj h
      exact .inr ⟨rfl, .inl rfl⟩
    | array field => exact .inl (packs_valuesColumn hs h)
    | objects property members => exact .inl (packs_objectsColumn hs h)
  | aggregate a =>
    obtain ⟨output, -, h⟩ := Outcome.bind_eq_ok.mp h
    obtain ⟨aggregator, property, members, distinct⟩ := a
    cases property with
    | none =>
      obtain rfl := Except.ok.inj h
      exact .inr ⟨rfl, .inl rfl⟩
    | some path =>
      cases aggregator with
      | count | sum | avg | min | max =>
        exact .inr ⟨rfl, .inr ⟨output, path, _, distinct, h⟩⟩
      | array =>
        dsimp only at h
        rw [packedPaths, Aggregation.packedPaths]
        dsimp only
        split at h
        · next hmembers =>
          rw [if_pos hmembers]
          exact .inl (packs_valuesColumn hs h)
        · next hmembers =>
          rw [if_neg hmembers]
          exact .inl (packs_objectsColumn hs h)
      | object => exact .inl (packs_objectsColumn hs h)

/-- An aggregate reads the document only where it has no value elements. -/
theorem isSelfContained_reducedColumn (hs : s.WellFormed) {output : Variable} {red : Reduction}
    {distinct : Bool} {r : Reduced}
    (h : Projection.reducedColumn s model output path red distinct = .ok c)
    (hr : c.column.reduced? = some r) : r.IsSelfContained := by
  obtain ⟨value, hops, hvalue, hhops, rfl⟩ := Projection.reducedColumn_eq_ok h
  obtain rfl := Option.some.inj hr
  rintro w (⟨before, v, e, after, hvalues, -⟩ | ⟨hw, hunbound, hdocument⟩)
  · have hbind : Element.bind v e ∈ hops := by
      rw [show hops = before ++ .bind v e :: after from hvalues]
      exact List.mem_append_right _ List.mem_cons_self
    exact Projection.isTriple_hopsAfter hhops _ hbind
  · rw [Aggregate.reads] at hw
    rcases Projection.path_cases hs hvalue hhops with ⟨-, rfl, hnil⟩ | ⟨-, hreads, -⟩ |
      ⟨-, -, u, rfl, hu, -⟩
    · exact hdocument ⟨hnil, List.mem_singleton.mp hw⟩
    · rw [hreads] at hw
      cases hw
    · exact hunbound (List.mem_singleton.mp hw ▸ hu)

namespace Column.Packs

variable {column : Column} {paths : List Path} {r : Reduced} (h : column.Packs name paths)
  (hr : column.reduced? = some r)
include h hr

theorem readsUnbound_iff : r.ReadsUnbound w ↔ w = rootVariable ∧ EndAtDocument paths := by
  obtain ⟨output, raw, encoded, packing, es, e, -, rfl, hes, hunbound⟩ := h
  obtain rfl := Option.some.inj hr
  rw [readsUnbound_packed hes, hunbound]

theorem root_notMem (hname : isFieldName name = true) (hpaths : EndAtDocument paths) :
    rootVariable ∉ elementVariables r.values := by
  obtain ⟨output, raw, encoded, packing, es, e, hencoded, rfl, hes, hunbound⟩ := h
  obtain rfl := Option.some.inj hr
  rw [elementVariables_append, List.mem_append, not_or]
  refine ⟨((hunbound rootVariable).mpr ⟨rfl, hpaths⟩).2, fun hmem => ?_⟩
  refine not_isNode_of_fieldVariable rfl (by decide) hname hencoded (.inl ?_)
  exact (List.mem_singleton.mp hmem).symm

end Column.Packs

/-- What a column reads and does not bind is the document, in a packed column all of whose
paths stay at it. -/
theorem ColumnSource.readsUnbound_iff (hs : s.WellFormed) {source : ColumnSource}
    (h : source.compile s model name = .ok c) {r : Reduced} (hr : c.column.reduced? = some r) :
    r.ReadsUnbound w ↔ w = rootVariable ∧ source.PacksDocument := by
  rcases packs_of_compile hs h with hpacks | ⟨hpaths, hnone | ⟨output, path, red, distinct, hc⟩⟩
  · exact hpacks.readsUnbound_iff hr
  · cases hnone.symm.trans hr
  · rw [PacksDocument, hpaths]
    exact iff_of_false (isSelfContained_reducedColumn hs hc hr w) fun hw =>
      not_endAtDocument_nil hw.2

/-- No solution of the value elements of such a column binds the document. -/
theorem ColumnSource.eq_none_of_packsDocument (hs : s.WellFormed) {source : ColumnSource}
    (hname : isFieldName name = true) (h : source.compile s model name = .ok c) {r : Reduced}
    (hr : c.column.reduced? = some r) (hdocument : source.PacksDocument) {ctx : Context}
    {κ : Solution} (hκ : κ ∈ (groupPattern r.values).eval ctx) : κ rootVariable = none := by
  rcases packs_of_compile hs h with hpacks | ⟨hpaths, -⟩
  · refine Sparql.Pattern.apply_of_mem_eval _ ctx κ ?_ hκ
    rw [scope_groupPattern]
    exact hpacks.root_notMem hr hname hdocument
  · rw [PacksDocument, hpaths] at hdocument
    exact absurd hdocument not_endAtDocument_nil

/-- The columns of a query that is compiled bind what they read, but for the packed columns all
of whose paths stay at the document: these read the document, and no solution of their value
elements binds it. -/
theorem isSelfContained_iff_of_compile {d : SchemaDefinition} {q : Spec}
    {options : CompileOptions} {sel : Selection} (hd : d.build = .ok s)
    (h : q.compile s options model = .ok sel) :
    ∃ q', q.normalized s model = .ok q' ∧ List.Forall₂ (fun source column =>
      ∀ r, column.reduced? = some r →
        (r.IsSelfContained ↔ ¬source.2.PacksDocument) ∧
        ∀ w, r.ReadsUnbound w → w = rootVariable ∧
          ∀ c : Context, ∀ κ ∈ (groupPattern r.values).eval c, κ w = none)
      q'.sources sel.columns := by
  have hs := SchemaDefinition.build_wellFormed hd
  obtain ⟨q', classUri, p, filters, orderBy, hvalid, hnormal, -, hp, -, rfl⟩ :=
    Spec.compile_eq_ok h
  have hnames := Spec.isFieldName_of_mem_sources hvalid hnormal
  obtain ⟨ts, compiled, -, -, -, hcompiled, -, hcolumns, -⟩ := Projection.compile_eq_ok hp
  refine ⟨q', hnormal, ?_⟩
  rw [hcolumns, List.forall₂_map_right_iff]
  refine ((List.forall₂_and_left _ _).mpr ⟨hnames, hcompiled⟩).imp ?_
  rintro source c ⟨hname, hc⟩ r hr
  have hreads (w : Variable) := ColumnSource.readsUnbound_iff (w := w) hs hc hr
  refine ⟨⟨fun hself hdocument => hself rootVariable ((hreads _).mpr ⟨rfl, hdocument⟩),
    fun hdocument w hw => hdocument ((hreads w).mp hw).2⟩, fun w hw => ?_⟩
  obtain ⟨rfl, hdocument⟩ := (hreads w).mp hw
  exact ⟨rfl, fun ctx κ hκ =>
    ColumnSource.eq_none_of_packsDocument hs hname hc hr hdocument hκ⟩

/-! ## Identifiers in an array -/

namespace Spec

/-- People as objects of their own, with their friends as others, an array of their
identifiers, and the number of these. -/
def ofCircles : Spec where
  fields := [
    ("friends", .objects (.ofText "friends") [("id", .ofText "_id"), ("name", .ofText "name")]),
    ("ids", .array (.ofText "_id")),
    ("self", .objects (.ofText "") [("id", .ofText "_id"), ("name", .ofText "name")])]
  aggregates := [("people", ⟨.count, some (.ofText "_id"), [], true⟩)]

theorem compile_ofCircles :
    ∃ sel, ofCircles.compile peopleSchema {} "Person" = .ok sel ∧ sel.columns.length = 4 :=
  ⟨_, rfl, rfl⟩

theorem isSelfContained_iff_ofCircles : ∃ sel, people.build = .ok peopleSchema ∧
    ofCircles.compile peopleSchema {} "Person" = .ok sel ∧ sel.columns.length = 4 ∧
    ∃ q', ofCircles.normalized peopleSchema "Person" = .ok q' ∧ List.Forall₂ (fun source column =>
      ∀ r, column.reduced? = some r →
        (r.IsSelfContained ↔ ¬source.2.PacksDocument) ∧
        ∀ w, r.ReadsUnbound w → w = rootVariable ∧
          ∀ c : Context, ∀ κ ∈ (groupPattern r.values).eval c, κ w = none)
      q'.sources sel.columns := by
  obtain ⟨sel, hsel, hlength⟩ := compile_ofCircles
  exact ⟨sel, people_build, hsel, hlength, isSelfContained_iff_of_compile people_build hsel⟩

/-- People by their identifiers, as an array. -/
def ofIds : Spec where
  fields := [("ids", .array (.ofText "_id"))]

theorem compile_ofIds : ∃ sel e, ofIds.compile peopleSchema {} "Person" = .ok sel ∧
    sel.columns = [.packed ⟨"ids"⟩ ⟨"_g·ids"⟩ ⟨"_e·ids"⟩ .values [.bind ⟨"_e·ids"⟩ e]] ∧
    rootVariable ∈ e.reads :=
  ⟨_, _, rfl, rfl, List.mem_singleton_self _⟩

end Spec

/-- An array of the identifiers of documents reads the document, which nothing in its column
binds. -/
theorem not_isSelfContained_ofIds : ¬∀ (d : SchemaDefinition) (s : Schema) (model : String)
    (q : Spec) (options : CompileOptions) (sel : Selection), d.build = .ok s →
      q.compile s options model = .ok sel →
        ∀ column ∈ sel.columns, ∀ r, column.reduced? = some r → r.IsSelfContained := by
  intro hall
  obtain ⟨sel, e, hsel, hcolumns, hreads⟩ := Spec.compile_ofIds
  refine hall people peopleSchema "Person" Spec.ofIds {} sel people_build hsel _
    (hcolumns ▸ List.mem_singleton_self _) _ rfl rootVariable ?_
  exact .inl ⟨[], _, e, [], rfl, hreads, nofun⟩

end DocGraph
