import DocGraph.Proofs.Compile.Columns
import DocGraph.Proofs.Compile.Prefixes
import DocGraph.Proofs.Schema.Built

/-!
# Each hop once

The scalar fields of a query share the hops of their prefixes. A prefix of the unmarked part of
some field is hopped to in the required elements (`Spec.Requires`), and any other prefix of a
marked field in the optional block of its group (`Spec.Defers`). Every such prefix has its hop
exactly once, after the hop that it starts from (`AreHops`), so the order of the prefixes is an
order of the paths by their parents (`Path.InOrder`). Leaving out the prefixes that another one
comes first for, or that belong elsewhere, keeps this order (`Path.InOrder.filter`,
`Path.InOrder.firstByKey`).
-/

namespace DocGraph

open Rdf (rdfType)
open Sparql (Node)

variable {s : Schema} {model : String} {path : Path} {r : ResolvedPath} {q : Spec}

/-! ## Orders of paths -/

namespace Path

/-- Whether the parent of each path of a list is known or comes before it. -/
def InOrder (known : Path → Prop) : List Path → Prop
  | [] => True
  | path :: rest => known path.parent ∧ InOrder (fun p => known p ∨ p = path) rest

namespace InOrder

variable {known known' : Path → Prop} {paths further : List Path}

/-- Paths may be left out of an order if they are known anyway or no parent. -/
theorem filter {f : Path → Bool} (h : InOrder known paths)
    (hknown : ∀ p, known p → f p = true → known' p)
    (hparent : ∀ p ∈ paths, f p = true → known' p.parent ∨ f p.parent = true) :
    InOrder known' (paths.filter f) := by
  induction paths generalizing known known' with
  | nil => trivial
  | cons path rest ih =>
    rw [List.forall_mem_cons] at hparent
    by_cases hf : f path = true
    · rw [List.filter_cons_of_pos hf]
      refine ⟨(hparent.1 hf).elim id (hknown _ h.1), ih h.2 ?_ ?_⟩
      · rintro p (hp | rfl) hfp
        · exact .inl (hknown p hp hfp)
        · exact .inr rfl
      · exact fun p hp hfp => (hparent.2 p hp hfp).imp_left .inl
    · rw [List.filter_cons_of_neg hf]
      refine ih h.2 ?_ hparent.2
      rintro p (hp | rfl) hfp
      · exact hknown p hp hfp
      · exact absurd hfp hf

theorem mono (h : InOrder known paths) (hknown : ∀ p, known p → known' p) :
    InOrder known' paths := by
  induction paths generalizing known known' with
  | nil => trivial
  | cons path rest ih => exact ⟨hknown _ h.1, ih h.2 fun p => Or.imp_left (hknown p)⟩

theorem append (h : InOrder known paths) (h' : InOrder known further) :
    InOrder known (paths ++ further) := by
  induction paths generalizing known with
  | nil => exact h'
  | cons path rest ih => exact ⟨h.1, ih h.2 (h'.mono fun p => .inl)⟩

theorem flatMap {α : Type} {f : α → List Path} {as : List α}
    (h : ∀ a ∈ as, InOrder known (f a)) : InOrder known (as.flatMap f) := by
  induction as with
  | nil => trivial
  | cons a as ih =>
    rw [List.forall_mem_cons] at h
    exact h.1.append (ih h.2)

/-- The first occurrences of an order are an order. -/
theorem firstByKey (h : InOrder known paths) : InOrder known (firstByKey id paths) := by
  induction paths generalizing known with
  | nil => trivial
  | cons path rest ih =>
    refine ⟨h.1, (ih h.2).filter (fun p hp _ => hp) fun p _ _ => ?_⟩
    by_cases hp : p.parent = path
    · exact .inl (.inr hp)
    · exact .inr (decide_eq_true hp)

end InOrder

/-! ## Prefixes of a path -/

/-- The prefixes of a path but the empty one. -/
def prefixes (p : Path) : List Path :=
  (List.range' 1 p.length).map p.take

theorem take_length (p : Path) : p.take p.length = p :=
  congrArg Path.mk List.take_length

theorem parent_take {p : Path} {n : Nat} (hn : n < p.length) :
    (p.take (n + 1)).parent = p.take n := by
  refine congrArg Path.mk ?_
  rw [List.dropLast_eq_take, take, List.length_take, List.take_take]
  change n < p.segments.length at hn
  exact congrArg p.segments.take (by omega)

/-- The prefixes of up to a number of segments are those that a path begins with. -/
theorem mem_map_take {p p' : Path} {n : Nat} (hne : p' ≠ .root) :
    p' ∈ (List.range' 1 n).map p.take ↔ p'.segments <+: (p.take n).segments := by
  have hlength : 0 < p'.segments.length :=
    List.length_pos_iff.mpr fun hnil => hne (congrArg Path.mk hnil)
  simp only [List.mem_map, List.mem_range'_1]
  constructor
  · rintro ⟨m, ⟨-, hm⟩, rfl⟩
    exact List.take_prefix_take_left (by omega)
  · intro h
    obtain ⟨hbegins, hle⟩ := List.prefix_take_iff.mp h
    exact ⟨p'.segments.length, ⟨hlength, by omega⟩,
      congrArg Path.mk (List.prefix_iff_eq_take.mp hbegins).symm⟩

theorem mem_prefixes {p p' : Path} (hne : p' ≠ .root) :
    p' ∈ p.prefixes ↔ p'.segments <+: p.segments := by
  rw [prefixes, mem_map_take hne, take_length]

/-- The prefixes of a path come one after the other. -/
theorem inOrder_prefixes (p : Path) : InOrder (· = .root) p.prefixes := by
  have hfrom (n m : Nat) (hm : n + m ≤ p.length) {known : Path → Prop} (hknown : known (p.take n)) :
      InOrder known ((List.range' (n + 1) m).map p.take) := by
    induction m generalizing n known with
    | zero => trivial
    | succ m ih =>
      exact ⟨by rwa [parent_take (by omega)], ih (n + 1) (by omega) (.inr rfl)⟩
  exact hfrom 0 p.length (by omega) rfl

/-! ## The paths that have a hop -/

/-- Whether a path ends with a hop: it is not that of the document, of its type or of an
identifier. -/
def HasHop (p : Path) : Prop :=
  p ≠ .root ∧ p.isIdentity = false ∧ p ≠ ⟨[typeKey]⟩

instance : DecidablePred HasHop :=
  fun p => inferInstanceAs (Decidable (p ≠ .root ∧ p.isIdentity = false ∧ p ≠ ⟨[typeKey]⟩))

theorem exists_length {p : Path} (hne : p ≠ .root) : ∃ n, p.length = n + 1 :=
  Nat.exists_eq_succ_of_ne_zero fun h => hne (congrArg Path.mk (List.length_eq_zero_iff.mp h))

theorem eq_typeKey {p : Path} (hlength : p.length = 1) (htype : p.isType = true) :
    p = ⟨[typeKey]⟩ := by
  obtain ⟨segment, hsegment⟩ := List.length_eq_one_iff.mp hlength
  rw [isType, last?, hsegment] at htype
  obtain rfl : segment = typeKey := Option.some.inj (beq_iff_eq.mp htype)
  exact congrArg Path.mk hsegment

/-- The node that a path leads to. -/
def node (p : Path) : Node :=
  .var ⟨variableName .node p.segments⟩

/-- The path of the parent is one of the document or has a hop, since only the last segment may
be that of an identifier or a type. -/
theorem hasHop_parent (h : s.resolve model path = .ok r) :
    path.parent = .root ∨ path.parent.HasHop := by
  by_cases hroot : path.parent = .root
  · exact .inl hroot
  have htake : path.parent = path.take (path.length - 1) :=
    congrArg Path.mk List.dropLast_eq_take
  have hparent : s.resolve model path.parent = .ok ⟨r.root, r.steps.dropLast⟩ := by
    rw [htake, Schema.resolve_take h, List.dropLast_eq_take, Schema.length_of_resolve h]
    rfl
  obtain ⟨step, hstep, hid, htype⟩ := Schema.terminal_of_resolve hparent hroot
  obtain ⟨p, hp⟩ := Schema.exists_property_of_mem_dropLast (Schema.resolve_eq_ok.mp h).2 step
    (List.mem_of_getLast? hstep)
  rw [hp] at hid htype
  refine .inr ⟨hroot, Bool.eq_false_iff.mpr fun he => ?_, fun he => ?_⟩
  · cases hid.mpr he
  · cases htype.mpr (by rw [he]; rfl)

end Path

/-! ## Hops -/

/-- Whether elements are the hop that ends a path: a triple, or the reverse path and the type of
its end for an inverse relation. -/
inductive IsHop (s : Schema) (model : String) (path : Path) : List Element → Prop where
  | type {r : ResolvedPath} {step : PathStep} :
    s.resolve model path = .ok r → r.terminal? = some step → step.target = .type →
      IsHop s model path [.statement path.parent.node rdfType path.node]
  | stored {r : ResolvedPath} {p : Property} :
    s.resolve model path = .ok r → r.property? = some p → p.origin? = none →
      IsHop s model path [.statement path.parent.node p.predicate path.node]
  | inverse {r : ResolvedPath} {p : Property} {origin relation : String} {classUri : Rdf.Iri} :
    s.resolve model path = .ok r → r.property? = some p → p.origin? = some (origin, relation) →
      s.classUri origin = .ok classUri →
      IsHop s model path [.inverse path.parent.node p.predicate path.node,
        .statement path.node rdfType (.term (.iri classUri))]

/-- Whether these are the hops of the paths that are wanted: one for each of them, after the hop
of its parent if this is not known. -/
structure AreHops (s : Schema) (model : String) (known wanted : Path → Prop)
    (hops : List (Path × List Element)) : Prop where
  each : ∀ hop ∈ hops, IsHop s model hop.1 hop.2
  all : ∀ path, path ∈ hops.map Prod.fst ↔ wanted path
  once : (hops.map Prod.fst).Nodup
  /-- No two of them are the same elements. -/
  different : (hops.map Prod.snd).Nodup
  ordered : Path.InOrder known (hops.map Prod.fst)

/-! ## The hops of prefixes -/

/-- The last step of a path with a hop is neither an identifier nor the type of the document. -/
theorem Path.HasHop.exists_step (hpath : path.HasHop) (h : s.resolve model path = .ok r) :
    ∃ n step, path.length = n + 1 ∧ r.steps[n]? = some step ∧ r.terminal? = some step ∧
      step.target ≠ .identity ∧ ¬(n = 0 ∧ step.target = .type) := by
  obtain ⟨hne, hid, htype⟩ := hpath
  obtain ⟨step, hstep, hidentity, htarget⟩ := Schema.terminal_of_resolve h hne
  obtain ⟨n, hn⟩ := Path.exists_length hne
  refine ⟨n, step, hn, ?_, hstep, fun he => ?_, ?_⟩
  · have hlength : r.steps.length = n + 1 := (Schema.length_of_resolve h).trans hn
    rwa [ResolvedPath.terminal?, List.getLast?_eq_getElem?, hlength, Nat.add_sub_cancel] at hstep
  · exact Bool.false_ne_true (hid.symm.trans (hidentity.mp he))
  · rintro ⟨rfl, he⟩
    exact htype (Path.eq_typeKey hn (htarget.mp he))

namespace PathPrefix

/-- The node that a path leads to is named after it, if it is the document or the end of a hop. -/
theorem nodeAt_eq_node {node : Node} (h : s.resolve model path = .ok r)
    (hpath : path = .root ∨ path.HasHop) (hnode : nodeAt path r path.length = .ok node) :
    node = path.node := by
  rcases hpath with rfl | hpath
  · exact (Except.ok.inj hnode).symm
  · obtain ⟨n, step, hn, hstep, -, hid, htype⟩ := hpath.exists_step h
    rw [hn, nodeAt, hstep] at hnode
    dsimp only at hnode
    rw [if_neg hid, if_neg htype, ← hn] at hnode
    obtain ⟨v, hv, rfl⟩ := Outcome.map_eq_ok.mp hnode
    have hname := name_of_variableAt hv
    rw [Path.length, List.take_length] at hname
    rw [Path.node, ← hname]

/-- The hop of a path that has one. -/
theorem isHop_of_hop {es : List Element} (h : s.resolve model path = .ok r) (hpath : path.HasHop)
    (hes : hop s ⟨path, r, path.length⟩ = .ok es) : IsHop s model path es := by
  obtain ⟨n, step, hn, hstep, hterminal, hid, htype⟩ := hpath.exists_step h
  rw [hn] at hes
  obtain ⟨subject, object, hsubject, hobject, hes⟩ := nodes_of_hop hstep htype hes
  have hparent : path.parent = path.take n := by
    rw [← Path.parent_take (by omega), ← hn, Path.take_length]
  obtain rfl : subject = path.parent.node := by
    have hlength : (path.take n).length = n := List.length_take_of_le (by
      change n ≤ path.length
      omega)
    have htake : path.segments.take n = (path.take n).segments.take n :=
      (by rw [Path.take, List.take_take, Nat.min_self])
    rw [nodeAt_congr h (Schema.resolve_take h n) htake] at hsubject
    rw [hparent]
    refine nodeAt_eq_node (Schema.resolve_take h n) ?_ (hlength.symm ▸ hsubject)
    exact hparent ▸ Path.hasHop_parent h
  obtain rfl : object = path.node := nodeAt_eq_node h (.inr hpath) (hn ▸ hobject)
  unfold DocGraph.hop at hes
  split at hes
  · next he => exact absurd he hid
  · next he =>
    obtain rfl := Except.ok.inj hes
    exact .type h hterminal he
  · next p he =>
    have hp : r.property? = some p := by
      rw [ResolvedPath.property?, hterminal, Option.bind_some, PathStep.property?, he]
    split at hes
    · next ho =>
      obtain rfl := Except.ok.inj hes
      exact .stored h hp ho
    · next origin relation ho =>
      obtain ⟨classUri, hclass, hes⟩ := Outcome.bind_eq_ok.mp hes
      obtain rfl := Except.ok.inj hes
      exact .inverse h hp ho hclass

/-- There is no hop to the document, to its type and to an identifier. -/
theorem eq_nil_of_hop {es : List Element} (h : s.resolve model path = .ok r)
    (hpath : ¬path.HasHop) (hes : hop s ⟨path, r, path.length⟩ = .ok es) : es = [] := by
  by_cases hne : path = .root
  · rw [hne] at hes
    exact (Except.ok.inj hes).symm
  obtain ⟨step, hstep, hidentity, htarget⟩ := Schema.terminal_of_resolve h hne
  by_cases htype : path = ⟨[typeKey]⟩
  · have hlength : r.steps.length = 1 := by rw [Schema.length_of_resolve h, htype]; rfl
    obtain ⟨first, hfirst⟩ := List.length_eq_one_iff.mp hlength
    rw [ResolvedPath.terminal?, hfirst, List.getLast?_singleton, Option.some.injEq] at hstep
    have hroot : isRootType ⟨path, r, path.length⟩ = true := by
      have he : first.target = .type := by rw [hstep, htarget, htype]; rfl
      simp [isRootType, hfirst, he, htype, Path.length]
    rw [hop, if_pos hroot] at hes
    exact (Except.ok.inj hes).symm
  have hid : path.isIdentity = true := by
    by_contra hid
    exact hpath ⟨hne, Bool.eq_false_iff.mpr hid, htype⟩
  rcases hop_eq_ok hes with rfl | ⟨n, last, subject, object, hn, hlast, -, -, hes⟩
  · rfl
  · have hlength : r.steps.length = n + 1 := (Schema.length_of_resolve h).trans hn
    rw [ResolvedPath.terminal?, List.getLast?_eq_getElem?, hlength, Nat.add_sub_cancel,
      hlast] at hstep
    rw [DocGraph.hop, Option.some.inj hstep, hidentity.mpr hid] at hes
    exact (Except.ok.inj hes).symm

end PathPrefix

/-! ## One hop for each path -/

namespace IsHop

variable {path' : Path} {es es' : List Element}

/-- A hop begins with a statement of either direction between the nodes of the parent and the
path. -/
theorem cases (h : IsHop s model path es) :
    (∃ p, es = [.statement path.parent.node p path.node]) ∨
      ∃ p classUri, es = [.inverse path.parent.node p path.node,
        .statement path.node rdfType (.term (.iri classUri))] := by
  cases h with
  | type => exact .inl ⟨_, rfl⟩
  | stored => exact .inl ⟨_, rfl⟩
  | inverse => exact .inr ⟨_, _, rfl⟩

theorem ne_nil (h : IsHop s model path es) : es ≠ [] := by
  rcases h.cases with ⟨p, rfl⟩ | ⟨p, classUri, rfl⟩ <;> exact List.cons_ne_nil _ _

/-- The hop of a path leads over its last step. -/
theorem exists_step (h : IsHop s model path es) :
    ∃ r step, s.resolve model path = .ok r ∧ r.terminal? = some step ∧
      hop s path.parent.node step path.node = .ok es := by
  have hproperty {r : ResolvedPath} {p : Property} (hp : r.property? = some p) :
      ∃ step, r.terminal? = some step ∧ step.target = .property p := by
    obtain ⟨step, hstep, hp⟩ := Option.bind_eq_some_iff.mp hp
    refine ⟨step, hstep, ?_⟩
    unfold PathStep.property? at hp
    split at hp
    · next ht => rw [ht, Option.some.inj hp]
    · cases hp
  cases h with
  | type hr hstep ht => exact ⟨_, _, hr, hstep, by rw [hop, ht]⟩
  | stored hr hp ho =>
    obtain ⟨step, hstep, ht⟩ := hproperty hp
    exact ⟨_, step, hr, hstep, by simp only [hop, ht, ho]⟩
  | inverse hr hp ho hclass =>
    obtain ⟨step, hstep, ht⟩ := hproperty hp
    exact ⟨_, step, hr, hstep, by simp only [hop, ht, ho, hclass]; rfl⟩

/-- A path has one hop at most. -/
theorem unique (h : IsHop s model path es) (h' : IsHop s model path es') : es = es' := by
  obtain ⟨r, step, hr, hstep, hes⟩ := h.exists_step
  obtain ⟨r', step', hr', hstep', hes'⟩ := h'.exists_step
  obtain rfl := Except.ok.inj (hr.symm.trans hr')
  obtain rfl := Option.some.inj (hstep.symm.trans hstep')
  exact Except.ok.inj (hes.symm.trans hes')

/-- A hop belongs to one path, after which its end is named. -/
theorem path_eq (hs : s.WellFormed) (h : IsHop s model path es) (h' : IsHop s model path' es) :
    path = path' := by
  have hnode : path.node = path'.node := by
    rcases h.cases with ⟨p, rfl⟩ | ⟨p, classUri, rfl⟩
    · rcases h'.cases with ⟨p', he⟩ | ⟨p', classUri', he⟩
      · simp only [Element.statement, List.cons.injEq, Element.triple.injEq,
          Sparql.Triple.mk.injEq] at he
        exact he.1.2.2
      · cases (List.cons.inj he).1
    · rcases h'.cases with ⟨p', he⟩ | ⟨p', classUri', he⟩
      · cases (List.cons.inj he).1
      · exact (Element.inverse.inj (List.cons.inj he).1).2.2
  obtain ⟨r, -, hr, -, -⟩ := h.exists_step
  obtain ⟨r', -, hr', -, -⟩ := h'.exists_step
  have hnames {p : Path} {r : ResolvedPath} (hr : s.resolve model p = .ok r) :
      Role.node.Names p.segments :=
    .ofFields (Schema.isFieldSegment_of_resolve hs hr) (by rintro ⟨⟩)
  have hname := Rdf.Variable.mk.inj (Node.var.inj hnode)
  exact congrArg Path.mk (variableName_injective (hnames hr) (hnames hr') hname).2

end IsHop

/-! ## Prefixes of fields -/

theorem map_firstByKey {α β : Type} [DecidableEq β] (key : α → β) (as : List α) :
    (firstByKey key as).map key = firstByKey id (as.map key) := by
  induction as with
  | nil => rfl
  | cons a as ih =>
    rw [List.map_cons, firstByKey, firstByKey, List.map_cons, ← ih, List.filter_map]
    rfl

theorem nodup_firstByKey {α : Type} [DecidableEq α] (as : List α) : (firstByKey id as).Nodup := by
  induction as with
  | nil => exact List.nodup_nil
  | cons a as ih =>
    refine List.nodup_cons.mpr ⟨fun ha => ?_, ih.filter _⟩
    exact of_decide_eq_true (List.mem_filter.mp ha).2 rfl

theorem mem_firstByKey {α : Type} [DecidableEq α] {a : α} {as : List α} :
    a ∈ firstByKey id as ↔ a ∈ as := by
  refine ⟨mem_of_mem_firstByKey, fun ha => ?_⟩
  obtain ⟨b, hb, he⟩ := exists_mem_firstByKey id ha
  obtain rfl : b = a := he
  exact hb

namespace PathPrefix

/-- The hop of a prefix is that of the prefix as a path. -/
theorem hop_eq_hop_key {p : PathPrefix} (h : s.resolve model p.path = .ok p.resolved)
    (hp : p.length ≤ p.path.length) :
    p.hop s = hop s ⟨p.key, ⟨p.resolved.root, p.resolved.steps.take p.length⟩, p.key.length⟩ := by
  have hlength : p.key.length = p.length := List.length_take_of_le hp
  rw [hlength]
  refine hop_congr h (Schema.resolve_take h p.length) ?_
  rw [key, Path.take, List.take_take, Nat.min_self]

/-- The hops of prefixes belong to those that have one. -/
theorem exists_hops {ps : List PathPrefix} {es : List Element} (h : hops s ps = .ok es)
    (hps : ∀ p ∈ ps, s.resolve model p.path = .ok p.resolved ∧ p.length ≤ p.path.length) :
    ∃ pairs : List (Path × List Element), (∀ e ∈ pairs, IsHop s model e.1 e.2) ∧
      pairs.map Prod.fst = (ps.map key).filter (Path.HasHop ·) ∧ es = pairs.flatMap Prod.snd := by
  obtain ⟨ess, hess, rfl⟩ := hops_eq_ok h
  clear h
  induction hess with
  | nil => exact ⟨[], nofun, rfl, rfl⟩
  | @cons p es ps ess hes _ ih =>
    rw [List.forall_mem_cons] at hps
    obtain ⟨pairs, heach, hkeys, hflat⟩ := ih hps.2
    have hresolve := Schema.resolve_take hps.1.1 p.length
    rw [hop_eq_hop_key hps.1.1 hps.1.2] at hes
    rw [List.map_cons, List.flatten_cons, hflat]
    by_cases hpath : p.key.HasHop
    · refine ⟨(p.key, es) :: pairs, ?_, ?_, rfl⟩
      · exact List.forall_mem_cons.mpr ⟨isHop_of_hop hresolve hpath hes, heach⟩
      · rw [List.filter_cons_of_pos (by simpa using hpath), ← hkeys, List.map_cons]
    · refine ⟨pairs, heach, ?_, ?_⟩
      · rw [List.filter_cons_of_neg (by simpa using hpath), hkeys]
      · rw [eq_nil_of_hop hresolve hpath hes, List.nil_append]

/-- The first prefixes of their keys among those of fields that pass a test, as paths. -/
theorem map_key_firstByKey (ts : List FieldTarget) (f : Path → Bool) :
    (firstByKey key (ts.flatMap fun t =>
        (ofPath t.path t.resolved 0).filter fun p => f p.key)).map key =
      firstByKey id (ts.flatMap fun t => t.path.prefixes.filter f) := by
  rw [map_firstByKey, List.map_flatMap]
  refine congrArg (firstByKey id) (congrArg (List.flatMap · ts) (funext fun t => ?_))
  rw [Path.prefixes, ofPath, Nat.sub_zero, Nat.zero_add, List.filter_map, List.filter_map,
    List.map_map]
  rfl

end PathPrefix

/-- The hops that belong to different paths in an order. -/
theorem AreHops.ofEach (hs : s.WellFormed) {known wanted : Path → Prop}
    {hops : List (Path × List Element)} (each : ∀ e ∈ hops, IsHop s model e.1 e.2)
    (all : ∀ path, path ∈ hops.map Prod.fst ↔ wanted path) (once : (hops.map Prod.fst).Nodup)
    (ordered : Path.InOrder known (hops.map Prod.fst)) : AreHops s model known wanted hops := by
  refine ⟨each, all, once, ?_, ordered⟩
  refine (List.Nodup.of_map _ once).map_on fun e he e' he' heq => ?_
  have hpath : e.1 = e'.1 := (each e he).path_eq hs (heq ▸ each e' he')
  exact Prod.ext hpath heq

/-- The first prefixes of fields that pass a test have their hops in order, if the parents of these
prefixes are known or pass it as well. -/
theorem exists_areHops (hs : s.WellFormed) {ts : List FieldTarget} {f : Path → Bool}
    {known wanted : Path → Prop} {es : List Element}
    (hts : ∀ t ∈ ts, s.resolve model t.path = .ok t.resolved)
    (h : PathPrefix.hops s (firstByKey PathPrefix.key (ts.flatMap fun t =>
      (PathPrefix.ofPath t.path t.resolved 0).filter fun p => f p.key)) = .ok es)
    (hroot : known .root)
    (hparent : ∀ path, f path = true → known path.parent ∨ f path.parent = true)
    (hwanted : ∀ path, path ≠ .root →
      ((∃ t ∈ ts, path.segments <+: t.path.segments) ∧ f path = true ↔ wanted path)) :
    ∃ hops, AreHops s model known (fun path => wanted path ∧ path.HasHop) hops ∧
      es = hops.flatMap Prod.snd := by
  have hresolve (p) (hp : p ∈ firstByKey PathPrefix.key (ts.flatMap fun t =>
      (PathPrefix.ofPath t.path t.resolved 0).filter fun p => f p.key)) :
      s.resolve model p.path = .ok p.resolved ∧ p.length ≤ p.path.length := by
    obtain ⟨t, ht, hp⟩ := List.mem_flatMap.mp (mem_of_mem_firstByKey hp)
    obtain ⟨n, -, hn, rfl⟩ := PathPrefix.mem_ofPath.mp (List.mem_of_mem_filter hp)
    exact ⟨hts t ht, hn⟩
  obtain ⟨hops, heach, hkeys, rfl⟩ := PathPrefix.exists_hops h hresolve
  rw [PathPrefix.map_key_firstByKey] at hkeys
  refine ⟨hops, .ofEach hs heach ?_ ?_ ?_, rfl⟩ <;> rw [hkeys]
  · intro path
    simp only [List.mem_filter, mem_firstByKey, List.mem_flatMap, decide_eq_true_eq]
    refine and_congr_left fun hpath => ?_
    rw [← hwanted path hpath.1]
    simp only [Path.mem_prefixes hpath.1]
    constructor
    · rintro ⟨t, ht, hp, hf⟩
      exact ⟨⟨t, ht, hp⟩, hf⟩
    · rintro ⟨⟨t, ht, hp⟩, hf⟩
      exact ⟨t, ht, hp, hf⟩
  · exact (nodup_firstByKey _).filter _
  · have hfields : Path.InOrder known (ts.flatMap fun t => t.path.prefixes.filter f) :=
      .flatMap fun t _ => t.path.inOrder_prefixes.filter (fun p hp _ => hp ▸ hroot)
        fun p _ hp => hparent p hp
    refine hfields.firstByKey.filter (fun p hp _ => hp) fun path hpath _ => ?_
    obtain ⟨t, ht, hpath⟩ := List.mem_flatMap.mp (mem_firstByKey.mp hpath)
    obtain ⟨n, -, rfl⟩ := List.mem_map.mp (List.mem_of_mem_filter hpath)
    rcases Path.hasHop_parent (Schema.resolve_take (hts t ht) n) with hp | hp
    · exact .inl (hp ▸ hroot)
    · exact .inr (decide_eq_true hp)

/-! ## Required and deferred prefixes -/

/-- The part of a path in front of its first marked segment. -/
def FieldPath.unmarkedPart (f : FieldPath) : Path :=
  f.path.take (f.optionalFrom.getD f.path.length)

namespace Spec

/-- Whether a path begins the unmarked part of a scalar field. -/
def Requires (q : Spec) (path : Path) : Prop :=
  path ≠ .root ∧ ∃ name field, (name, .scalar field) ∈ q.fields ∧
    path.segments <+: field.unmarkedPart.segments

/-- Whether a path begins a scalar field of a group of optional paths, and is not required. -/
def Defers (q : Spec) (group : String) (path : Path) : Prop :=
  path ≠ .root ∧ ¬q.Requires path ∧ ∃ name field, (name, .scalar field) ∈ q.fields ∧
    field.optionalGroup? = some group ∧ path.segments <+: field.path.segments

/-- A path on the way to a required one is required. -/
theorem Requires.parent (h : q.Requires path) : path.parent = .root ∨ q.Requires path.parent := by
  obtain ⟨-, name, field, hfield, hbegins⟩ := h
  by_cases hroot : path.parent = .root
  · exact .inl hroot
  · exact .inr ⟨hroot, name, field, hfield, (List.dropLast_prefix _).trans hbegins⟩

end Spec

namespace Projection

variable {ts : List FieldTarget} {p : Projection}

/-- The targets are the scalar fields. -/
theorem mem_field_of_mem_targets {fields : Dict Selector} (h : targets s model fields = .ok ts) :
    ∀ t ∈ ts, ∃ name, (name, .scalar t.field) ∈ fields := by
  induction fields generalizing ts with
  | nil =>
    rw [← Except.ok.inj h]
    exact nofun
  | cons e fields ih =>
    have hrest {others : List FieldTarget} (hothers : targets s model fields = .ok others) :
        ∀ t ∈ others, ∃ name, (name, .scalar t.field) ∈ e :: fields := fun t ht =>
      (ih hothers t ht).imp fun name => List.mem_cons_of_mem e
    rcases targets_cons h with ⟨field, r, others, he, -, hothers, rfl⟩ | ⟨-, h⟩
    · refine List.forall_mem_cons.mpr ⟨⟨e.1, ?_⟩, hrest hothers⟩
      exact he ▸ List.mem_cons_self
    · exact hrest h

theorem exists_target_iff (h : targets s model q.fields = .ok ts) {P : FieldPath → Prop} :
    (∃ t ∈ ts, P t.field) ↔ ∃ name field, (name, .scalar field) ∈ q.fields ∧ P field := by
  constructor
  · rintro ⟨t, ht, hP⟩
    obtain ⟨name, hname⟩ := mem_field_of_mem_targets h t ht
    exact ⟨name, t.field, hname, hP⟩
  · rintro ⟨name, field, hfield, hP⟩
    obtain ⟨t, ht, rfl⟩ := exists_target h hfield
    exact ⟨t, ht, hP⟩

theorem mem_requiredPaths (h : targets s model q.fields = .ok ts) (hne : path ≠ .root) :
    path ∈ requiredPaths ts ↔ q.Requires path := by
  have hmem (t : FieldTarget) : path ∈ t.requiredPrefixes ↔
      path.segments <+: t.field.unmarkedPart.segments := Path.mem_map_take hne
  rw [requiredPaths, List.mem_flatMap, Spec.Requires, and_iff_right hne, ← exists_target_iff h]
  simp only [hmem]

/-- The required prefixes have their hops in order from the document. -/
theorem exists_requiredHops (hs : s.WellFormed) (h : targets s model q.fields = .ok ts)
    {es : List Element} (hes : PathPrefix.hops s (requiredHops ts) = .ok es) :
    ∃ hops, AreHops s model (· = .root) (fun path => q.Requires path ∧ path.HasHop) hops ∧
      es = hops.flatMap Prod.snd := by
  refine exists_areHops hs (f := fun path => decide (path ∈ requiredPaths ts))
    (resolve_of_mem_targets h) hes rfl (fun path hpath => ?_) fun path hne => ?_
  · rw [decide_eq_true_eq] at hpath ⊢
    by_cases hroot : path.parent = .root
    · exact .inl hroot
    have hne : path ≠ .root := fun he => hroot (by rw [he]; rfl)
    exact .inr ((mem_requiredPaths h hroot).mpr
      (((mem_requiredPaths h hne).mp hpath).parent.resolve_left hroot))
  · rw [decide_eq_true_eq, mem_requiredPaths h hne, and_iff_right_iff_imp]
    rintro ⟨-, name, field, hfield, hbegins⟩
    obtain ⟨t, ht, rfl⟩ := exists_target h hfield
    exact ⟨t, ht, hbegins.trans (List.take_prefix _ _)⟩

/-- The prefixes that a group of optional paths adds have their hops in order from the required
ones. -/
theorem exists_optionalHops (hs : s.WellFormed) (h : targets s model q.fields = .ok ts)
    {group : String} {es : List Element}
    (hes : PathPrefix.hops s (optionalHops ts group) = .ok es) :
    ∃ hops, AreHops s model (fun path => path = .root ∨ q.Requires path)
        (fun path => q.Defers group path ∧ path.HasHop) hops ∧ es = hops.flatMap Prod.snd := by
  refine exists_areHops hs (f := fun path => decide (path ∉ requiredPaths ts))
    (fun t ht => resolve_of_mem_targets h t (List.mem_of_mem_filter ht)) hes (.inl rfl)
    (fun path _ => ?_) fun path hne => ?_
  · by_cases hroot : path.parent = .root
    · exact .inl (.inl hroot)
    by_cases hrequired : q.Requires path.parent
    · exact .inl (.inr hrequired)
    · exact .inr (decide_eq_true fun hmem => hrequired ((mem_requiredPaths h hroot).mp hmem))
  · let begins (field : FieldPath) : Prop :=
      field.optionalGroup? = some group ∧ path.segments <+: field.path.segments
    rw [decide_eq_true_eq, mem_requiredPaths h hne, Spec.Defers, and_iff_right hne, and_comm,
      ← exists_target_iff h (P := begins)]
    simp only [List.mem_filter, decide_eq_true_eq, and_assoc]
    rfl

end Projection

/-- Whether these are the optional blocks of a query, each with the hops of a group: one for each
group that has any. -/
structure AreBlocks (s : Schema) (model : String) (q : Spec)
    (blocks : List (String × List (Path × List Element))) : Prop where
  each : ∀ b ∈ blocks, AreHops s model (fun path => path = .root ∨ q.Requires path)
    (fun path => q.Defers b.1 path ∧ path.HasHop) b.2
  all : ∀ group, group ∈ blocks.map Prod.fst ↔ ∃ path, q.Defers group path ∧ path.HasHop
  once : (blocks.map Prod.fst).Nodup

namespace AreHops

variable {known wanted known' wanted' : Path → Prop} {hops hops' : List (Path × List Element)}

theorem flatMap_eq_nil_iff (h : AreHops s model known wanted hops) :
    hops.flatMap Prod.snd = [] ↔ hops = [] := by
  refine ⟨fun he => ?_, fun he => by rw [he]; rfl⟩
  refine List.eq_nil_iff_forall_not_mem.mpr fun e hmem => ?_
  exact (h.each e hmem).ne_nil (List.flatMap_eq_nil_iff.mp he e hmem)

theorem ne_nil_iff (h : AreHops s model known wanted hops) :
    hops ≠ [] ↔ ∃ path, wanted path := by
  simp only [← h.all, ne_eq, ← List.map_eq_nil_iff (f := Prod.fst) (l := hops)]
  rw [List.eq_nil_iff_forall_not_mem, not_forall_not]

theorem subset (h : AreHops s model known wanted hops) (h' : AreHops s model known' wanted' hops')
    (hwanted : ∀ path, wanted path → wanted' path) : hops ⊆ hops' := by
  rintro ⟨path, es⟩ hmem
  have hpath := (h'.all path).mpr (hwanted path ((h.all path).mp (List.mem_map_of_mem hmem)))
  obtain ⟨⟨path', es'⟩, hmem', rfl⟩ := List.mem_map.mp hpath
  obtain rfl : es = es' := (h.each _ hmem).unique (h'.each _ hmem')
  exact hmem'

/-- The paths that are wanted tell the hops but for their order. -/
theorem perm (h : AreHops s model known wanted hops) (h' : AreHops s model known' wanted' hops')
    (hwanted : ∀ path, wanted path ↔ wanted' path) : hops.Perm hops' := by
  refine (List.perm_ext_iff_of_nodup (.of_map _ h.once) (.of_map _ h'.once)).mpr fun e => ?_
  exact ⟨fun he => h.subset h' (fun path => (hwanted path).mp) he,
    fun he => h'.subset h (fun path => (hwanted path).mpr) he⟩

end AreHops

namespace Projection

variable {ts : List FieldTarget} {p : Projection}

/-- The hops of each group that a field belongs to, also of one without any. -/
theorem exists_groups (hs : s.WellFormed) (h : targets s model q.fields = .ok ts)
    {groups : List String} {ess : List (List Element)}
    (hess : groups.mapM (fun group => PathPrefix.hops s (optionalHops ts group)) = .ok ess) :
    ∃ blocks : List (String × List (Path × List Element)), blocks.map Prod.fst = groups ∧
      ess = blocks.map (fun b => b.2.flatMap Prod.snd) ∧
      ∀ b ∈ blocks, AreHops s model (fun path => path = .root ∨ q.Requires path)
        (fun path => q.Defers b.1 path ∧ path.HasHop) b.2 := by
  have hgroups := Outcome.mapM_eq_ok.mp hess
  clear hess
  induction hgroups with
  | nil => exact ⟨[], rfl, rfl, nofun⟩
  | @cons group es groups ess hes _ ih =>
    obtain ⟨blocks, hkeys, rfl, heach⟩ := ih
    obtain ⟨hops, hhops, rfl⟩ := exists_optionalHops hs h hes
    refine ⟨(group, hops) :: blocks, ?_, rfl, List.forall_mem_cons.mpr ⟨hhops, heach⟩⟩
    rw [List.map_cons, hkeys]

theorem mem_optionalGroups (h : targets s model q.fields = .ok ts) {group : String}
    (hpath : q.Defers group path) : group ∈ optionalGroups ts := by
  obtain ⟨-, -, name, field, hfield, hgroup, -⟩ := hpath
  obtain ⟨t, ht, rfl⟩ := exists_target h hfield
  exact mem_firstByKey.mpr (List.mem_filterMap.mpr ⟨t, ht, hgroup⟩)

/-- The optional elements are the blocks of the groups that have hops. -/
theorem exists_blocks (hs : s.WellFormed) (h : targets s model q.fields = .ok ts)
    {es : List Element} (hes : optionalElements s ts = .ok es) :
    ∃ blocks, AreBlocks s model q blocks ∧
      es = blocks.map fun b => .optional (b.2.flatMap Prod.snd) := by
  obtain ⟨ess, hess, hes⟩ := Outcome.bind_eq_ok.mp hes
  obtain rfl := Except.ok.inj hes
  obtain ⟨blocks, hkeys, rfl, heach⟩ := exists_groups hs h hess
  refine ⟨blocks.filter (!·.2.isEmpty), ⟨?_, fun group => ?_, ?_⟩, ?_⟩
  · exact fun b hb => heach b (List.mem_of_mem_filter hb)
  · constructor
    · intro hgroup
      obtain ⟨b, hb, rfl⟩ := List.mem_map.mp hgroup
      obtain ⟨hb, hne⟩ := List.mem_filter.mp hb
      exact (heach b hb).ne_nil_iff.mp (by simpa using hne)
    · rintro ⟨path, hpath⟩
      have hgroup := mem_optionalGroups h hpath.1
      rw [← hkeys] at hgroup
      obtain ⟨b, hb, rfl⟩ := List.mem_map.mp hgroup
      have hne := (heach b hb).ne_nil_iff.mpr ⟨path, hpath⟩
      exact List.mem_map_of_mem (List.mem_filter.mpr ⟨hb, by simpa using hne⟩)
  · have hnodup : (blocks.map Prod.fst).Nodup := hkeys ▸ nodup_firstByKey _
    exact (List.filter_sublist.map Prod.fst).nodup hnodup
  · rw [List.filter_map, List.map_map]
    refine congrArg (List.map _) (List.filter_congr fun b hb => ?_)
    rw [Function.comp_apply, Bool.eq_iff_iff]
    simp [(heach b hb).flatMap_eq_nil_iff]

/-- The scalar fields of a query are compiled to the hops of their prefixes. Each required one
is matched once, after the one that it starts from. A group of optional paths that adds any has one
block with them, which are matched once as well, after the required ones and those of the
block that they start from. What is required of documents does not depend on the names and the
order of the fields. -/
theorem areHops_of_compile {d : SchemaDefinition} (hd : d.build = .ok s)
    (h : compile s model q = .ok p) :
    (∃ hops, AreHops s model (· = .root) (fun path => q.Requires path ∧ path.HasHop) hops ∧
      p.required = hops.flatMap Prod.snd) ∧
    (∃ blocks, AreBlocks s model q blocks ∧
      p.optionals = blocks.map fun b => .optional (b.2.flatMap Prod.snd)) ∧
    .optional [] ∉ p.optionals ∧
    ∀ q' p', compile s model q' = .ok p' → (∀ path, q'.Requires path ↔ q.Requires path) →
      p'.required.Perm p.required := by
  have hs := SchemaDefinition.build_wellFormed hd
  obtain ⟨ts, compiled, hts, hrequired, hoptionals, -⟩ := compile_eq_ok h
  obtain ⟨hops, hhops, hes⟩ := exists_requiredHops hs hts hrequired
  obtain ⟨blocks, hblocks, hbs⟩ := exists_blocks hs hts hoptionals
  refine ⟨⟨hops, hhops, hes⟩, ⟨blocks, hblocks, hbs⟩, fun hempty => ?_, fun q' p' h' hsame => ?_⟩
  · rw [hbs] at hempty
    obtain ⟨b, hb, he⟩ := List.mem_map.mp hempty
    have hnil := (hblocks.each b hb).flatMap_eq_nil_iff.mp (Element.optional.inj he)
    refine (hblocks.each b hb).ne_nil_iff.mpr ?_ hnil
    exact (hblocks.all b.1).mp (List.mem_map_of_mem hb)
  · obtain ⟨ts', compiled', hts', hrequired', -⟩ := compile_eq_ok h'
    obtain ⟨hops', hhops', hes'⟩ := exists_requiredHops hs hts' hrequired'
    rw [hes, hes']
    exact (hhops'.perm hhops fun path => and_congr_left' (hsame path)).flatMap_right _

/-- Fields that share the way to the mentor, which one of them makes optional. -/
def overlappingFields : Spec where
  fields :=
    [("age", .scalar (.ofText "?age")), ("born", .scalar (.ofText "mentor.?born")),
      ("id", .scalar (.ofText "mentor.?_id")), ("name", .scalar (.ofText "?mentor.name"))]

/-- The triple that leads from a path of people over a property to the end of another one. -/
def ofPeople (subject : Path) (property : String) (object : Path) : Element :=
  .statement subject.node ⟨"http://example.org/properties/Person/" ++ property⟩ object.node

/-- The mentor is required, though a field makes it optional, and the group of its identifier has
no block. -/
theorem areHops_of_compile_overlapping :
    ∃ p, people.build = .ok peopleSchema ∧
      compile peopleSchema "Person" overlappingFields = .ok p ∧
      p.required = [ofPeople .root "mentor" ⟨["mentor"]⟩] ∧
      p.optionals =
        [.optional [ofPeople .root "age" ⟨["age"]⟩],
          .optional [ofPeople ⟨["mentor"]⟩ "born" ⟨["mentor", "born"]⟩],
          .optional [ofPeople ⟨["mentor"]⟩ "name" ⟨["mentor", "name"]⟩]] ∧
      (∃ hops, AreHops peopleSchema "Person" (· = .root)
          (fun path => overlappingFields.Requires path ∧ path.HasHop) hops ∧
        p.required = hops.flatMap Prod.snd) ∧
      ∃ blocks, AreBlocks peopleSchema "Person" overlappingFields blocks ∧
        p.optionals = blocks.map fun b => .optional (b.2.flatMap Prod.snd) :=
  have hlaid {p : Projection} (h : compile peopleSchema "Person" overlappingFields = .ok p) :=
    areHops_of_compile people_build h
  ⟨_, people_build, rfl, rfl, rfl, (hlaid rfl).1, (hlaid rfl).2.1⟩

end Projection

end DocGraph
