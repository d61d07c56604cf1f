import DocGraph.Document
import DocGraph.Proofs.Dict

/-!
# Nested places

A list of keys names a place in a value (`Value.at?`). `Value.put` writes at such a place,
as `insertNested` does for the places of a document (`put_eq_insertNested`): the value is
at its place then (`at?_put_append`), objects lead to it (`at?_put_prefix`), and other
places are left as they are (`at?_put_of_apart`).

Several values are put into a document one after another. They are `Consistent` if what one of them
has at the place of another one is the other, and only then they are all there in the end
(`consistent_iff_at?`), and in whatever order they are put (`consistent_iff_perm`).

The main statement on documents is `insertNested_writesOnly`: a value that is inserted is at its
place, and what is apart from it is as before.
-/

namespace DocGraph

open Json (Value)

namespace Json.Value

variable {v w o : Value} {p q r path : List String} {key : String} {d : Dict Value}

/-- The members of an object; no other value has any. -/
def members (v : Value) : Dict Value :=
  v.obj?.getD []

@[simp] theorem members_obj (d : Dict Value) : (obj d).members = d := rfl

/-- The items of an array, and the values of the members of an object. -/
def parts : Value → List Value
  | .arr items => items
  | .obj members => members.map Prod.snd
  | _ => []

theorem members_of_parts_eq_nil (h : v.parts = []) : v.members = [] := by
  cases v with
  | obj members => exact List.map_eq_nil_iff.mp h
  | _ => rfl

/-- The value at a nested place. -/
def at? : List String → Value → Option Value
  | [], v => some v
  | key :: rest, v => (Dict.get? key v.members).bind (at? rest)

/-- The value with another one at a nested place. What is on the way and is no object
gives way to one. -/
def put : List String → Value → Value → Value
  | [], v, _ => v
  | key :: rest, v, o =>
    .obj (Dict.insert key (put rest v ((Dict.get? key o.members).getD .null)) o.members)

/-- Writing at a place of a document is `put`. -/
theorem put_eq_insertNested (hp : p ≠ []) (v : Value) (d : Document) :
    put p v (.obj d) = .obj (d.insertNested p v) := by
  induction p generalizing d with
  | nil => exact absurd rfl hp
  | cons key rest ih =>
    cases rest with
    | nil => rfl
    | cons next rest =>
      -- what is under the key counts by its members only
      have hchild : put (next :: rest) v ((Dict.get? key d).getD .null) =
          .obj ((d.child key).insertNested (next :: rest) v) := by
        rw [← ih (List.cons_ne_nil _ _), Document.child]
        cases Dict.get? key d <;> rfl
      rw [put, members_obj, hchild]
      rfl

/-! ## Reading what was put -/

theorem at?_append (p q : List String) (v : Value) : at? (p ++ q) v = (at? p v).bind (at? q) := by
  induction p generalizing v with
  | nil => rfl
  | cons key rest ih =>
    rw [List.cons_append, at?, at?, Option.bind_assoc]
    exact congrArg _ (funext ih)

theorem at?_null (hp : p ≠ []) : at? p .null = none := by
  cases p with
  | nil => exact absurd rfl hp
  | cons key rest => rfl

/-- Past its place, what was put is read. -/
theorem at?_put_append (p r : List String) (v o : Value) : at? (p ++ r) (put p v o) = at? r v := by
  induction p generalizing o with
  | nil => rfl
  | cons key rest ih =>
    rw [List.cons_append, at?, put, members_obj, Dict.get?_insert_self,
      Option.bind_some, ih]

theorem at?_put_self (p : List String) (v o : Value) : at? p (put p v o) = some v := by
  have h := at?_put_append p [] v o
  rwa [List.append_nil] at h

/-- On the way to its place, there is what was there, with the rest of the way put into
it. -/
theorem at?_put_prefix (path r : List String) (v o : Value) :
    at? path (put (path ++ r) v o) = some (put r v ((at? path o).getD .null)) := by
  induction path generalizing o with
  | nil => rfl
  | cons key rest ih =>
    rw [List.cons_append, at?, put, members_obj, Dict.get?_insert_self,
      Option.bind_some, ih, at?]
    cases Dict.get? key o.members with
    | some w => rfl
    | none =>
      cases rest with
      | nil => rfl
      | cons => rfl

/-- Other places are left as they are. -/
theorem at?_put_of_apart (hp : ¬p <+: q) (hq : ¬q <+: p) (v o : Value) :
    at? q (put p v o) = at? q o := by
  induction p generalizing q o with
  | nil => exact absurd (List.nil_prefix) hp
  | cons key rest ih =>
    cases q with
    | nil => exact absurd (List.nil_prefix) hq
    | cons other q =>
      rw [at?, put, members_obj, at?, Dict.get?_insert]
      split
      · next hkey =>
        subst hkey
        rw [List.prefix_cons_inj] at hp hq
        rw [Option.bind_some, ih hp hq]
        cases Dict.get? key o.members with
        | some w => rfl
        | none => exact at?_null fun hnil => hq (hnil ▸ List.nil_prefix)
      · rfl

/-! ## Putting twice -/

/-- What is put into a value that was put is put into the value before. -/
theorem put_append (p r : List String) (v w o : Value) :
    put (p ++ r) w (put p v o) = put p (put r w v) o := by
  induction p generalizing o with
  | nil => rfl
  | cons key rest ih =>
    simp only [List.cons_append, put, members_obj, Dict.get?_insert_self, Option.getD_some, ih,
      Dict.insert_insert_self]

/-- A value takes the place of one that was put into it. -/
theorem put_put_append (p r : List String) (v w o : Value) :
    put p v (put (p ++ r) w o) = put p v o := by
  induction p generalizing o with
  | nil => rfl
  | cons key rest ih =>
    simp only [List.cons_append, put, members_obj, Dict.get?_insert_self, Option.getD_some, ih,
      Dict.insert_insert_self]

/-- Values at places apart may be put in any order. -/
theorem put_comm (hp : ¬p <+: q) (hq : ¬q <+: p) (v w o : Value) :
    put p v (put q w o) = put q w (put p v o) := by
  induction p generalizing q o with
  | nil => exact absurd List.nil_prefix hp
  | cons key rest ih =>
    cases q with
    | nil => exact absurd List.nil_prefix hq
    | cons other q =>
      simp only [put, members_obj]
      by_cases hkey : key = other
      · subst hkey
        rw [List.prefix_cons_inj] at hp hq
        simp only [Dict.get?_insert_self, Option.getD_some, ih hp hq, Dict.insert_insert_self]
      · rw [Dict.get?_insert_of_ne hkey, Dict.get?_insert_of_ne (Ne.symm hkey),
          Dict.insert_comm hkey]

/-- Whether the members of all objects in a value are in order. -/
def IsOrdered (v : Value) : Prop :=
  ∀ path d, at? path v = some (.obj d) → Dict.IsSorted d

theorem isOrdered_of_members_eq_nil (h : v.members = []) : v.IsOrdered := by
  intro path d hd
  cases path with
  | nil =>
    obtain rfl := Option.some.inj hd
    rw [members_obj] at h
    rw [h]
    exact List.Pairwise.nil
  | cons key rest =>
    rw [at?, h] at hd
    cases hd

/-- What is there already is put in vain. -/
theorem put_of_at? (hv : v.IsOrdered) (h : at? p v = some w) : put p w v = v := by
  induction p generalizing v with
  | nil => exact (Option.some.inj h).symm
  | cons key rest ih =>
    obtain ⟨o, ho, hw⟩ := Option.bind_eq_some_iff.mp h
    cases v with
    | obj d =>
      have hd : Dict.IsSorted d := hv [] d rfl
      have hordered : o.IsOrdered := fun path d' hd' => hv (key :: path) d' (by
        rw [at?, ho, Option.bind_some, hd'])
      rw [put, ho, Option.getD_some, ih hordered hw]
      exact congrArg Value.obj (Dict.insert_of_get? hd ho)
    | _ => cases ho

/-! ## Values that agree -/

/-- A value with the place that it is put at. -/
abbrev Placed := List String × Value

/-- The value that others have been put into, one after another. -/
def putAll (es : List Placed) (o : Value) : Value :=
  es.foldl (fun o e => put e.1 e.2 o) o

/-- Whether what each of some values has at the place of another one is the other. -/
def Consistent (es : List Placed) : Prop :=
  ∀ e ∈ es, ∀ e' ∈ es, ∀ rest, e'.1 = e.1 ++ rest → at? rest e.2 = some e'.2

variable {es es' : List Placed} {e e' : Placed}

/-- Whether a value at its place is why there is another one at a place: that is a part of
it, or an object on the way to it. -/
def Placed.Gives (e : Placed) (path : List String) (w : Value) : Prop :=
  (∃ rest, path = e.1 ++ rest ∧ at? rest e.2 = some w) ∨
    ∃ rest, rest ≠ [] ∧ e.1 = path ++ rest ∧ ∃ d, w = .obj d

/-- What is there after one value has been put was there before, or is there by it. -/
theorem gives_of_at?_put (h : at? path (put e.1 e.2 o) = some w) :
    at? path o = some w ∨ e.Gives path w := by
  by_cases hp : e.1 <+: path
  · obtain ⟨rest, rfl⟩ := hp
    rw [at?_put_append] at h
    exact .inr (.inl ⟨rest, rfl, h⟩)
  by_cases hq : path <+: e.1
  · obtain ⟨rest, hrest⟩ := hq
    cases rest with
    | nil => exact absurd ⟨[], by rw [← hrest, List.append_nil, List.append_nil]⟩ hp
    | cons key rest =>
      rw [← hrest, at?_put_prefix] at h
      exact .inr (.inr ⟨_, List.cons_ne_nil key rest, hrest.symm, _, (Option.some.inj h).symm⟩)
  · rw [at?_put_of_apart hp hq] at h
    exact .inl h

/-- Nothing is there in the end but what was there before, and what is there by the values
that were put. -/
theorem gives_of_at?_putAll (h : at? path (putAll es o) = some w) :
    at? path o = some w ∨ ∃ e ∈ es, e.Gives path w := by
  induction es generalizing o with
  | nil => exact .inl h
  | cons e es ih =>
    rcases ih h with ho | ⟨e', he', hgives⟩
    · rcases gives_of_at?_put ho with ho | hgives
      · exact .inl ho
      · exact .inr ⟨e, List.mem_cons_self, hgives⟩
    · exact .inr ⟨e', List.mem_cons_of_mem _ he', hgives⟩

theorem putAll_concat (es : List Placed) (e : Placed) (o : Value) :
    putAll (es ++ [e]) o = put e.1 e.2 (putAll es o) := by
  rw [putAll, List.foldl_append]
  rfl

/-- Two values that agree may be put in any order. -/
theorem Consistent.put_comm (h : Consistent es) (hordered : ∀ e ∈ es, e.2.IsOrdered) (he : e ∈ es)
    (he' : e' ∈ es) (o : Value) :
    put e'.1 e'.2 (put e.1 e.2 o) = put e.1 e.2 (put e'.1 e'.2 o) := by
  have hinto {e e' : Placed} (he : e ∈ es) (he' : e' ∈ es) (hle : e.1 <+: e'.1) :
      put e'.1 e'.2 (put e.1 e.2 o) = put e.1 e.2 (put e'.1 e'.2 o) := by
    obtain ⟨rest, hrest⟩ := hle
    rw [← hrest, put_append, put_put_append,
      put_of_at? (hordered e he) (h e he e' he' rest hrest.symm)]
  by_cases hle : e.1 <+: e'.1
  · exact hinto he he' hle
  by_cases hge : e'.1 <+: e.1
  · exact (hinto he' he hge).symm
  · exact Value.put_comm hge hle _ _ _

theorem Consistent.putAll_perm (h : Consistent es) (hordered : ∀ e ∈ es, e.2.IsOrdered)
    (hperm : es.Perm es') (o : Value) : putAll es o = putAll es' o :=
  hperm.foldl_eq' (fun _ he _ he' o => h.put_comm hordered he he' o) o

/-- Values are all at their places in the end if they agree, and only then. -/
theorem consistent_iff_at? (hordered : ∀ e ∈ es, e.2.IsOrdered) (o : Value) :
    Consistent es ↔ ∀ e ∈ es, at? e.1 (putAll es o) = some e.2 := by
  constructor
  · intro h e he
    obtain ⟨l, l', rfl⟩ := List.append_of_mem he
    have hperm : (l ++ e :: l').Perm (l ++ l' ++ [e]) :=
      List.perm_middle.trans (List.perm_append_singleton e (l ++ l')).symm
    rw [h.putAll_perm hordered hperm, putAll_concat, at?_put_self]
  · intro h e he e' he' rest hrest
    have hplace := h e' he'
    rw [hrest, at?_append, h e he, Option.bind_some] at hplace
    exact hplace

/-- Values give the same in whatever order they are put if they agree, and only then. -/
theorem consistent_iff_perm (hordered : ∀ e ∈ es, e.2.IsOrdered) (o : Value) :
    Consistent es ↔ ∀ es', es'.Perm es → putAll es' o = putAll es o := by
  constructor
  · intro h es' hperm
    exact (h.putAll_perm hordered hperm.symm o).symm
  · intro h e he e' he' rest hrest
    by_cases heq : e = e'
    · subst heq
      obtain rfl := List.append_right_eq_self.mp hrest.symm
      rfl
    · -- of the two, the one that is put last counts
      classical
      have hmem : e' ∈ es.erase e := (List.mem_erase_of_ne (Ne.symm heq)).mpr he'
      have hperm : (e :: e' :: (es.erase e).erase e').Perm es :=
        (((List.perm_cons_erase hmem).cons e).symm).trans (List.perm_cons_erase he).symm
      have hlast (a b : Placed) (l : List Placed) (hab : (a :: b :: l).Perm es) :
          at? b.1 (putAll es o) = some b.2 ∧ putAll es o = put b.1 b.2 (putAll (l ++ [a]) o) := by
        have hconcat : (l ++ [a] ++ [b]).Perm es := by
          refine .trans ?_ hab
          rw [List.append_assoc]
          exact List.perm_append_comm
        rw [← h _ hconcat, putAll_concat]
        exact ⟨at?_put_self _ _ _, rfl⟩
      rw [← (hlast e e' _ hperm).1, (hlast e' e _ ((List.Perm.swap _ _ _).trans hperm)).2, hrest,
        at?_put_append]

end Json.Value

/-! ## Inserting into a document -/

namespace Document

open Json.Value (at? put put_eq_insertNested members)

variable {d : Document} {p : List String}

/-- How a document has `v` written into it at the place `p`, and nowhere else. -/
structure WritesOnly (d : Document) (p : List String) (v : Value) : Prop where
  here : at? p (.obj (d.insertNested p v)) = some v
  /-- On the way there are objects: those that were there, or empty ones where there were none,
  with the rest of the way inserted. -/
  above : ∀ q rest, rest ≠ [] → p = q ++ rest →
    at? q (.obj (d.insertNested p v)) =
      some (.obj (insertNested ((at? q (.obj d)).getD .null).members rest v))
  apart : ∀ q, ¬p <+: q → ¬q <+: p →
    at? q (.obj (d.insertNested p v)) = at? q (.obj d)
  /-- A value at a place apart from it may be inserted before or after. -/
  comm : ∀ q w, ¬p <+: q → ¬q <+: p →
    (d.insertNested p v).insertNested q w = (d.insertNested q w).insertNested p v

/-- Below an object or anything else, writing goes by the members that are there. -/
theorem put_eq_members (hp : p ≠ []) (v o : Value) :
    put p v o = .obj (insertNested o.members p v) := by
  rw [← put_eq_insertNested hp]
  cases p with
  | nil => exact absurd rfl hp
  | cons key rest => rfl

/-- A value is written at its place, and what is apart from it is as before. At the place of the
document itself nothing is written. -/
theorem insertNested_writesOnly (d : Document) :
    (∀ v, d.insertNested [] v = d) ∧ ∀ p v, p ≠ [] → d.WritesOnly p v := by
  refine ⟨fun v => rfl, fun p v hp => ?_⟩
  have hput : Value.obj (d.insertNested p v) = put p v (.obj d) := (put_eq_insertNested hp v d).symm
  refine ⟨?_, fun q rest hrest he => ?_, fun q hpq hqp => ?_, fun q w hpq hqp => ?_⟩
  · rw [hput, Json.Value.at?_put_self]
  · rw [hput, he, Json.Value.at?_put_prefix, put_eq_members hrest]
  · rw [hput, Json.Value.at?_put_of_apart hpq hqp]
  · have hq : q ≠ [] := fun hnil => hqp (hnil ▸ List.nil_prefix)
    apply Value.obj.inj
    calc Value.obj ((d.insertNested p v).insertNested q w)
        = put q w (put p v (.obj d)) := by rw [← put_eq_insertNested hq, hput]
      _ = put p v (put q w (.obj d)) := Json.Value.put_comm hqp hpq w v _
      _ = Value.obj ((d.insertNested q w).insertNested p v) := by
        rw [put_eq_insertNested hq, put_eq_insertNested hp]

/-- A post whose author is a text. -/
def post : Document :=
  [("author", .str "ann"), ("title", .str "hello")]

/-- The text gives way to an object, and the title stays. -/
theorem insertNested_writesOnly_post :
    at? ["author", "name"] (.obj (post.insertNested ["author", "name"] (.str "bob"))) =
        some (.str "bob") ∧
      at? ["author"] (.obj (post.insertNested ["author", "name"] (.str "bob"))) =
        some (.obj [("name", .str "bob")]) ∧
      at? ["title"] (.obj (post.insertNested ["author", "name"] (.str "bob"))) =
        some (.str "hello") := by
  have hwrites := (insertNested_writesOnly post).2 ["author", "name"] (.str "bob") nofun
  exact ⟨hwrites.here, hwrites.above ["author"] ["name"] nofun rfl,
    hwrites.apart ["title"] (by decide) (by decide)⟩

end Document

end DocGraph
