import DocGraph.Column.Name
import DocGraph.Proofs.Schema.Steps
import DocGraph.Proofs.Text.Segments
import Std.Data.String.ToNat

/-!
# Variables and what they are named after

The name of a variable tells its role and its segments: split at the separator
it gives the tag of the role and then the segments (`split_variableName`). So
two variables of different roles, or at different paths, are different
(`variableName_injective`). Segments that are names of fields make a variable in
every role (`variableAt_of_names`).
-/

namespace DocGraph

open Rdf (Variable)

/-- The name of a variable, split at the separator. -/
def pieces (v : Variable) : List String :=
  Text.split Role.separator v.name

/-- Whether segments can be told apart in the name of a variable. -/
def Plain (segments : List String) : Prop :=
  ∀ segment ∈ segments, segment ≠ "" ∧ Role.separator ∉ segment.toList

theorem plain_of_isFieldSegment {segments : List String}
    (h : ∀ segment ∈ segments, isFieldSegment segment = true) : Plain segments :=
  fun segment hs => ⟨ne_empty_of_isFieldSegment (h segment hs),
    notMem_of_isFieldSegment (h segment hs) (by decide)⟩

theorem Plain.take {segments : List String} (h : Plain segments) (n : Nat) :
    Plain (segments.take n) :=
  fun segment hs => h segment (List.mem_of_mem_take hs)

/-! ## Tags -/

namespace Role

theorem eq_output_of_tag? {role : Role} (h : role.tag? = none) : role = .output := by
  cases role with
  | output => rfl
  | _ => cases h

theorem exists_tag {role : Role} (h : role ≠ .output) : ∃ tag, role.tag? = some tag :=
  Option.ne_none_iff_exists'.mp fun hnone => h (eq_output_of_tag? hnone)

theorem isFieldChar_of_mem_repr {n : Nat} {c : Char} (h : c ∈ (toString n).toList) :
    isFieldChar c = true := by
  rw [Nat.toString_eq_ofList_toDigits, String.toList_ofList] at h
  have hdigit : Number.isDigit c = true := Nat.isDigit_of_mem_toDigits (by decide) (by decide) h
  rw [isFieldChar, hdigit, Bool.or_true, Bool.true_or]

/-- A tag is an underscore and a word that is no reserved key. -/
theorem tag_eq {role : Role} {tag : String} (h : role.tag? = some tag) :
    ∃ c cs, tag.toList = '_' :: c :: cs ∧ (∀ d ∈ c :: cs, isFieldChar d = true) ∧
      c ∈ ['p', 'e', 'g', 'f'] := by
  cases role with
  | output => cases h
  | node | encoded | packed =>
    obtain rfl := Option.some.inj h
    exact ⟨_, _, rfl, List.all_eq_true.mp (by decide), by decide⟩
  | filter n =>
    obtain rfl := Option.some.inj h
    refine ⟨'f', "ilter".toList ++ (toString n).toList, ?_, ?_, by decide⟩
    · rw [String.toList_append]
      rfl
    · rw [← List.cons_append, List.forall_mem_append]
      exact ⟨List.all_eq_true.mp (by decide), fun d => isFieldChar_of_mem_repr⟩

theorem isFieldChar_of_mem_tag {role : Role} {tag : String} (h : role.tag? = some tag) :
    ∀ c ∈ tag.toList, isFieldChar c = true := by
  obtain ⟨c, cs, hlist, hchars, -⟩ := tag_eq h
  rw [hlist, List.forall_mem_cons]
  exact ⟨by decide, hchars⟩

theorem separator_notMem_tag {role : Role} {tag : String} (h : role.tag? = some tag) :
    separator ∉ tag.toList :=
  fun hmem => absurd (isFieldChar_of_mem_tag h _ hmem) (by decide)

/-- No tag is a text that goes on in another way. -/
theorem tag_ne {role : Role} {tag s : String} (h : role.tag? = some tag)
    (hs : s.toList[1]? ∉ ['p', 'e', 'g', 'f'].map some) : tag ≠ s := by
  rintro rfl
  obtain ⟨c, cs, hlist, -, hc⟩ := tag_eq h
  rw [hlist] at hs
  exact hs (List.mem_map_of_mem hc)

theorem tag_ne_rootName {role : Role} {tag : String} (h : role.tag? = some tag) :
    tag ≠ rootName :=
  tag_ne h (by decide)

/-- The names of the variables of the document and of all roles but that of columns begin
like no name of a field. -/
theorem isFieldSegment_tag {role : Role} {tag : String} (h : role.tag? = some tag) :
    isFieldSegment tag = false := by
  have hid : tag ≠ idKey := tag_ne h (by decide)
  have htype : tag ≠ typeKey := tag_ne h (by decide)
  have hletter : Rdf.Iri.isLetter '_' = false := by decide
  obtain ⟨c, cs, hlist, -, -⟩ := tag_eq h
  simp only [isFieldSegment, hid, htype, decide_false, Bool.false_or, hlist, hletter,
    Bool.false_and]

theorem tag?_injective {r r' : Role} {tag : String} (h : r.tag? = some tag)
    (h' : r'.tag? = some tag) : r = r' := by
  have hfilter (n : Nat) (t : String) (ht : t.toList.length = 2) :
      "_filter" ++ toString n ≠ t := fun he => by
    have := congrArg (fun s => s.toList.length) he
    simp [ht] at this
  cases r with
  | output => cases h
  | filter n =>
    cases r' with
    | output => cases h'
    | filter n' =>
      have heq : "_filter" ++ toString n = "_filter" ++ toString n' :=
        (Option.some.inj h).trans (Option.some.inj h').symm
      rw [String.append_right_inj] at heq
      rw [Nat.repr_injective heq]
    | node | encoded | packed =>
      exact absurd ((Option.some.inj h).trans (Option.some.inj h').symm) (hfilter n _ rfl)
  | node | encoded | packed =>
    cases r' with
    | output => cases h'
    | filter n' =>
      exact absurd ((Option.some.inj h').trans (Option.some.inj h).symm) (hfilter n' _ rfl)
    | node | encoded | packed =>
      first
        | rfl
        | exact absurd ((Option.some.inj h).trans (Option.some.inj h').symm) (by decide)

end Role

/-! ## The pieces of a name -/

theorem plain_split {name : String} (h : isFieldName name = true) : Plain (Text.split '.' name) :=
  plain_of_isFieldSegment (List.all_eq_true.mp h)

/-- What the name of a variable is made of: the tag of its role, and its segments. -/
def namePieces (role : Role) (segments : List String) : List String :=
  if role = .node ∧ segments = [] then [rootName] else role.tag?.toList ++ segments

theorem namePieces_tagged {role : Role} {tag : String} {segments : List String}
    (htag : role.tag? = some tag) (hne : segments ≠ []) :
    namePieces role segments = tag :: segments := by
  rw [namePieces, if_neg fun h => hne h.2, htag]
  rfl

/-- Split at the separator, a name gives its pieces. -/
theorem split_variableName {role : Role} {segments : List String} (hplain : Plain segments)
    (hne : role = .output → segments ≠ []) :
    Text.split Role.separator (variableName role segments) = namePieces role segments := by
  have hseparator : ∀ segment ∈ segments, Role.separator ∉ segment.toList :=
    fun segment hs => (hplain segment hs).2
  cases htag : role.tag? with
  | none =>
    obtain rfl := Role.eq_output_of_tag? htag
    exact Text.split_join _ _ (hne rfl) hseparator
  | some tag =>
    have hsplit : Text.split Role.separator (Text.join Role.separator (tag :: segments)) =
        tag :: segments :=
      Text.split_join _ _ (List.cons_ne_nil _ _)
        (List.forall_mem_cons.mpr ⟨Role.separator_notMem_tag htag, hseparator⟩)
    by_cases hnil : segments = []
    · subst hnil
      have hempty : Text.join Role.separator [] = "" := rfl
      rw [Text.join_singleton] at hsplit
      simp only [variableName, namePieces, htag, hempty, if_true, and_true]
      split
      · decide
      · exact hsplit
    · have hjoined : Text.join Role.separator segments ≠ "" :=
        Text.join_ne_empty hnil fun s hs => (hplain s hs).1
      rw [namePieces_tagged htag hnil, variableName]
      simp only [htag, hjoined, if_false]
      rw [← Text.join_cons _ _ hnil, hsplit]

/-! ## Names of fields -/

/-- The segments that variables are named after: those of the name of a field for a column,
and any properties and reserved keys for the other roles. -/
def Role.Names (role : Role) (segments : List String) : Prop :=
  match role with
  | .output => ∃ name, isFieldName name = true ∧ segments = Text.split '.' name
  | _ => ∀ segment ∈ segments, segment = idKey ∨ segment = typeKey ∨ isIdentifier segment = true

namespace Role.Names

variable {role : Role} {segments : List String}

theorem isFieldSegment_of_mem (h : role.Names segments) :
    ∀ segment ∈ segments, isFieldSegment segment = true := by
  have hinternal (hsegments : ∀ segment ∈ segments,
      segment = idKey ∨ segment = typeKey ∨ isIdentifier segment = true) :
      ∀ segment ∈ segments, isFieldSegment segment = true := by
    intro segment hmem
    rcases hsegments segment hmem with rfl | rfl | h
    · decide
    · decide
    · exact isFieldSegment_of_isIdentifier h
  cases role with
  | output =>
    obtain ⟨name, hname, rfl⟩ := h
    exact List.all_eq_true.mp hname
  | _ => exact hinternal h

theorem plain (h : role.Names segments) : Plain segments :=
  plain_of_isFieldSegment h.isFieldSegment_of_mem

theorem ne_nil (h : role.Names segments) : role = .output → segments ≠ [] := by
  rintro rfl
  obtain ⟨name, -, rfl⟩ := h
  exact Text.split_ne_nil _ _

theorem ofFields (h : ∀ segment ∈ segments, isFieldSegment segment = true)
    (hne : role = .output → segments ≠ []) : role.Names segments := by
  have hinternal : ∀ segment ∈ segments,
      segment = idKey ∨ segment = typeKey ∨ isIdentifier segment = true := by
    intro segment hmem
    have hsegment := h segment hmem
    rw [isFieldSegment, Bool.or_eq_true, Bool.or_eq_true, decide_eq_true_eq,
      decide_eq_true_eq] at hsegment
    exact or_assoc.mp hsegment
  cases role with
  | output =>
    have hsplit := Text.split_join '.' segments (hne rfl) fun s hs =>
      notMem_of_isFieldSegment (h s hs) (by decide)
    exact ⟨Text.join '.' segments, by rwa [isFieldName, hsplit, List.all_eq_true], hsplit.symm⟩
  | _ => exact hinternal

theorem ofKey {key : String} (h : isFieldSegment key = true) : role.Names [key] :=
  ofFields (List.forall_mem_singleton.mpr h) fun _ => List.cons_ne_nil _ _

theorem ofFieldName {name : String} (h : isFieldName name = true) :
    role.Names (Text.split '.' name) :=
  ofFields (List.all_eq_true.mp h) fun _ => Text.split_ne_nil _ _

end Role.Names

/-! ## Names of variables -/

theorem isNameLetter_of_isLetter {c : Char} (h : Rdf.Iri.isLetter c = true) :
    Rdf.isNameLetter c = true := by
  unfold Rdf.isNameLetter
  simp only [h, Bool.true_or]

theorem beginsName_of_isFieldChar {c : Char} (h : isFieldChar c = true) :
    Rdf.beginsName c = true := by
  rw [isFieldChar, Bool.or_eq_true, Bool.or_eq_true] at h
  unfold Rdf.beginsName
  rcases h with (h | h) | h
  · rw [isNameLetter_of_isLetter h, Bool.or_true]
  · simp only [h, Bool.true_or]
  · simp only [h, Bool.true_or, Bool.or_true]

theorem continuesVariable_of_isFieldChar {c : Char} (h : isFieldChar c = true) :
    Rdf.continuesVariable c = true := by
  rw [isFieldChar, Bool.or_eq_true, Bool.or_eq_true] at h
  unfold Rdf.continuesVariable
  rcases h with (h | h) | h
  · rw [isNameLetter_of_isLetter h, Bool.or_true, Bool.true_or]
  · simp only [h, Bool.true_or]
  · simp only [h, Bool.true_or, Bool.or_true]

theorem Variable.ofName?_eq_some {s : String} {c : Char} {cs : List Char} (hs : s.toList = c :: cs)
    (hc : Rdf.beginsName c = true) (hcs : ∀ d ∈ cs, Rdf.continuesVariable d = true) :
    Variable.ofName? s = some ⟨s⟩ := by
  simp only [Variable.ofName?, hs, hc, List.all_eq_true.mpr hcs, Bool.and_self, if_true]

theorem name_of_variableAt {role : Role} {segments : List String} {v : Variable}
    (h : variableAt role segments = .ok v) : v.name = variableName role segments := by
  unfold variableAt at h
  cases hv : Variable.ofName? (variableName role segments) with
  | none => simp [hv] at h
  | some w =>
    simp only [hv, Except.ok.injEq] at h
    subst h
    unfold Variable.ofName? at hv
    split at hv
    · cases hv
    · split at hv
      · rw [← Option.some.inj hv]
      · cases hv

section Names

variable {role role' : Role} {segments segments' : List String}

theorem continuesVariable_of_mem_join (h : role.Names segments) {c : Char}
    (hc : c ∈ (Text.join Role.separator segments).toList) : Rdf.continuesVariable c = true := by
  rcases Text.mem_join hc with rfl | ⟨segment, hmem, hc⟩
  · decide
  · exact continuesVariable_of_isFieldChar
      (isFieldChar_of_isFieldSegment (h.isFieldSegment_of_mem segment hmem) c hc)

/-- A name begins with a character of the name of a field. -/
theorem exists_toList_variableName (h : role.Names segments) :
    ∃ c cs, (variableName role segments).toList = c :: cs ∧ isFieldChar c = true ∧
      ∀ d ∈ cs, Rdf.continuesVariable d = true := by
  cases htag : role.tag? with
  | none =>
    obtain rfl := Role.eq_output_of_tag? htag
    obtain ⟨segment, rest, rfl⟩ := List.exists_cons_of_ne_nil (h.ne_nil rfl)
    have hsegment := h.isFieldSegment_of_mem segment List.mem_cons_self
    obtain ⟨c, cs, hlist⟩ := List.exists_cons_of_ne_nil fun he =>
      ne_empty_of_isFieldSegment hsegment (String.toList_eq_nil_iff.mp he)
    obtain ⟨ds, hjoined⟩ := Text.toList_join_cons Role.separator segment rest
    rw [hlist] at hjoined
    refine ⟨c, cs ++ ds, hjoined, ?_, fun d hd => continuesVariable_of_mem_join h ?_⟩
    · exact isFieldChar_of_isFieldSegment hsegment c (hlist ▸ List.mem_cons_self)
    · rw [hjoined]
      exact List.mem_cons_of_mem _ hd
  | some tag =>
    have htagged : ∀ d ∈ tag.toList, Rdf.continuesVariable d = true := fun d hd =>
      continuesVariable_of_isFieldChar (Role.isFieldChar_of_mem_tag htag d hd)
    obtain ⟨c, cs, hlist, -, -⟩ := Role.tag_eq htag
    rw [hlist, List.forall_mem_cons] at htagged
    unfold variableName
    simp only [htag]
    split
    · split
      · exact ⟨_, _, rfl, by decide, List.all_eq_true.mp (by decide)⟩
      · exact ⟨'_', c :: cs, hlist, by decide, htagged.2⟩
    · rw [String.toList_append, String.toList_append, hlist, String.toList_singleton]
      refine ⟨'_', c :: cs ++ [Role.separator] ++ (Text.join Role.separator segments).toList,
        rfl, by decide, ?_⟩
      rw [List.forall_mem_append, List.forall_mem_append, List.forall_mem_singleton]
      exact ⟨⟨htagged.2, by decide⟩, fun d => continuesVariable_of_mem_join h⟩

/-- The names of fields name a variable in every role. -/
theorem variableAt_of_names (h : role.Names segments) :
    variableAt role segments = .ok ⟨variableName role segments⟩ := by
  obtain ⟨c, cs, hlist, hc, hcs⟩ := exists_toList_variableName h
  rw [variableAt, Variable.ofName?_eq_some hlist (beginsName_of_isFieldChar hc) hcs]

theorem namePieces_output : namePieces .output segments = segments := by
  rw [namePieces, if_neg fun h => absurd h.1 (by decide)]
  rfl

/-- Only the pieces of a column begin with a name of a field; the others begin with an
underscore. -/
theorem namePieces_internal (h : role ≠ .output) (segments : List String) :
    ∃ tag rest, namePieces role segments = tag :: rest ∧ isFieldSegment tag = false ∧
      tag.toList.head? = some '_' := by
  obtain ⟨tag, htag⟩ := Role.exists_tag h
  rw [namePieces, htag]
  split
  · exact ⟨rootName, [], rfl, by decide, by decide⟩
  · obtain ⟨c, cs, hlist, -, -⟩ := Role.tag_eq htag
    exact ⟨tag, segments, rfl, Role.isFieldSegment_tag htag, by rw [hlist, List.head?_cons]⟩

theorem namePieces_of_ne_output (h : role ≠ .output) (segments : List String) :
    (role = .node ∧ segments = [] ∧ namePieces role segments = [rootName]) ∨
      ∃ tag, role.tag? = some tag ∧ ¬(role = .node ∧ segments = []) ∧
        namePieces role segments = tag :: segments := by
  obtain ⟨tag, htag⟩ := Role.exists_tag h
  by_cases hroot : role = .node ∧ segments = []
  · exact .inl ⟨hroot.1, hroot.2, if_pos hroot⟩
  · refine .inr ⟨tag, htag, hroot, ?_⟩
    rw [namePieces, if_neg hroot, htag]
    rfl

/-- The pieces of a name tell its role and its segments. -/
theorem namePieces_injective (h : role.Names segments) (h' : role'.Names segments')
    (he : namePieces role segments = namePieces role' segments') :
    role = role' ∧ segments = segments' := by
  have hcolumn {role : Role} {fields segments : List String} (hfields : Role.output.Names fields)
      (hrole : role ≠ .output) : fields ≠ namePieces role segments := by
    obtain ⟨tag, rest, hpieces, htag, -⟩ := namePieces_internal hrole segments
    rw [hpieces]
    rintro rfl
    rw [hfields.isFieldSegment_of_mem tag List.mem_cons_self] at htag
    cases htag
  by_cases hrole : role = .output
  · subst hrole
    rw [namePieces_output] at he
    by_cases hrole' : role' = .output
    · subst hrole'
      rw [namePieces_output] at he
      exact ⟨rfl, he⟩
    · exact absurd he (hcolumn h hrole')
  by_cases hrole' : role' = .output
  · subst hrole'
    rw [namePieces_output] at he
    exact absurd he.symm (hcolumn h' hrole)
  -- neither is a column: each is the document, or has a tag
  rcases namePieces_of_ne_output hrole segments with ⟨rfl, rfl, hp⟩ | ⟨tag, htag, -, hp⟩
  · rcases namePieces_of_ne_output hrole' segments' with ⟨rfl, rfl, -⟩ | ⟨tag', htag', -, hp'⟩
    · exact ⟨rfl, rfl⟩
    · obtain ⟨htag, -⟩ := List.cons.inj (hp.symm.trans (he.trans hp'))
      exact absurd htag.symm (Role.tag_ne_rootName htag')
  · rcases namePieces_of_ne_output hrole' segments' with ⟨rfl, rfl, hp'⟩ | ⟨tag', htag', -, hp'⟩
    · obtain ⟨hroot, -⟩ := List.cons.inj (hp.symm.trans (he.trans hp'))
      exact absurd hroot (Role.tag_ne_rootName htag)
    · obtain ⟨rfl, hsegments⟩ := List.cons.inj (hp.symm.trans (he.trans hp'))
      exact ⟨Role.tag?_injective htag htag', hsegments⟩

/-- Different roles and different paths have different names. -/
theorem variableName_injective (h : role.Names segments) (h' : role'.Names segments')
    (he : variableName role segments = variableName role' segments') :
    role = role' ∧ segments = segments' := by
  refine namePieces_injective h h' ?_
  rw [← split_variableName h.plain h.ne_nil, he, split_variableName h'.plain h'.ne_nil]

theorem variableName_root : variableName .node [] = rootName := rfl

/-- Only the node of the empty path is the document. -/
theorem variableName_ne_root (h : role.Names segments) (hne : segments ≠ []) :
    ⟨variableName role segments⟩ ≠ rootVariable := by
  have hroot : Role.node.Names [] := nofun
  exact fun he => hne (variableName_injective h hroot (Variable.mk.inj he)).2

end Names

theorem variableName_output (key : String) : variableName .output [key] = key :=
  Text.join_singleton _ key

/-! ## Pieces of variables -/

theorem pieces_rootVariable : pieces rootVariable = [rootName] := by
  decide

theorem pieces_variableAt {role : Role} {segments : List String} {v : Variable}
    (h : variableAt role segments = .ok v) (hplain : Plain segments)
    (hne : role = .output → segments ≠ []) : pieces v = namePieces role segments := by
  rw [pieces, name_of_variableAt h, split_variableName hplain hne]

/-- The pieces of a variable are the tag of its role and its segments. -/
theorem pieces_of_variableAt {role : Role} {tag : String} {segments : List String} {v : Variable}
    (htag : role.tag? = some tag) (h : variableAt role segments = .ok v) (hne : segments ≠ [])
    (hplain : Plain segments) : pieces v = tag :: segments := by
  rw [pieces_variableAt h hplain fun _ => hne, namePieces_tagged htag hne]

/-- The pieces of the variable of a column are the segments of its field. -/
theorem pieces_of_outputVariable {name : String} {v : Variable} (hname : isFieldName name = true)
    (h : outputVariable name = .ok v) : pieces v = Text.split '.' name := by
  unfold outputVariable fieldVariable at h
  rw [pieces_variableAt h (plain_split hname) fun _ => Text.split_ne_nil _ _, namePieces_output]

theorem pieces_of_fieldVariable {role : Role} {tag name : String} {v : Variable}
    (htag : role.tag? = some tag) (hname : isFieldName name = true)
    (h : fieldVariable role name = .ok v) : pieces v = tag :: Text.split '.' name :=
  pieces_of_variableAt htag h (Text.split_ne_nil _ _) (plain_split hname)

/-- Different fields have different columns. -/
theorem outputVariable_injective {name name' : String} {v : Variable}
    (hname : isFieldName name = true) (hname' : isFieldName name' = true)
    (h : outputVariable name = .ok v) (h' : outputVariable name' = .ok v) : name = name' := by
  have hsplit : Text.split '.' name = Text.split '.' name' :=
    (pieces_of_outputVariable hname h).symm.trans (pieces_of_outputVariable hname' h')
  rw [← Text.join_split '.' name, hsplit, Text.join_split]

theorem nodup_outputVariables {names : List String} {vs : List Variable}
    (h : List.Forall₂ (fun name v => outputVariable name = .ok v) names vs)
    (hnames : ∀ name ∈ names, isFieldName name = true) (hdistinct : names.Nodup) : vs.Nodup := by
  induction h with
  | nil => exact .nil
  | @cons name v names vs hv hvs ih =>
    rw [List.forall_mem_cons] at hnames
    rw [List.nodup_cons] at hdistinct
    refine List.nodup_cons.mpr ⟨fun hmem => hdistinct.1 ?_, ih hnames.2 hdistinct.2⟩
    obtain ⟨name', hname', hv'⟩ := exists_left_of_mem hvs hmem
    rwa [outputVariable_injective hnames.1 (hnames.2 name' hname') hv hv']

/-! ## Internal variables -/

/-- Whether a variable is named after no field, so that it is no column of the results. -/
def IsInternal (v : Variable) : Prop :=
  ∃ tag rest, pieces v = tag :: rest ∧ isFieldSegment tag = false

theorem isInternal_rootVariable : IsInternal rootVariable :=
  ⟨rootName, [], pieces_rootVariable, by decide⟩

theorem isInternal_of_fieldVariable {role : Role} {tag name : String} {v : Variable}
    (htag : role.tag? = some tag) (hname : isFieldName name = true)
    (h : fieldVariable role name = .ok v) : IsInternal v :=
  ⟨tag, _, pieces_of_fieldVariable htag hname h, Role.isFieldSegment_tag htag⟩

theorem not_isInternal_of_outputVariable {name : String} {v : Variable}
    (hname : isFieldName name = true) (h : outputVariable name = .ok v) : ¬IsInternal v := by
  rintro ⟨tag, rest, hv, htag⟩
  have hsegment : isFieldSegment tag = true :=
    List.all_eq_true.mp hname tag (by
      rw [← pieces_of_outputVariable hname h, hv]
      exact List.mem_cons_self)
  rw [hsegment] at htag
  cases htag

end DocGraph
