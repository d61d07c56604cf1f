import DocGraph.Proofs.Compile.Columns

/-!
# The names of columns, read back

No two variables share a name, over all roles and all paths (`variableName_eq_iff`). The
inverse of the naming of columns knows the variables of all other roles by the underscore
that they begin with (`outputSegments?_of_ne_output`). The reserved keys begin with one as
well and are known by their whole names, so a field that goes on after a reserved key is
taken for an internal variable (`not_inverted_of_goesOn`); the names of all other fields are
read back (`inverted_of_validateNames`).
-/

namespace DocGraph

variable {role role' : Role} {segments segments' : List String}

/-! ## Collisions -/

/-- The names of two variables are the same only if their roles and their paths are, and only
the node of the empty path is named like the document. -/
theorem variableName_eq_iff (h : role.Names segments) (h' : role'.Names segments') :
    (variableName role segments = variableName role' segments' ↔
      role = role' ∧ segments = segments') ∧
    (variableName role segments = rootName ↔ role = .node ∧ segments = []) := by
  have hroot : Role.node.Names [] := nofun
  refine ⟨⟨variableName_injective h h', ?_⟩, ⟨fun he => ?_, ?_⟩⟩
  · rintro ⟨rfl, rfl⟩
    rfl
  · exact variableName_injective h hroot he
  · rintro ⟨rfl, rfl⟩
    exact variableName_root

/-- A column that begins with an underscore is told from a comparison at the same path. -/
theorem variableName_eq_iff_underscores :
    (Role.output.Names ["_id", "p_1"] ∧ (Role.filter 1).Names ["_id", "p_1"]) ∧
      (variableName .output ["_id", "p_1"] = variableName (.filter 1) ["_id", "p_1"] ↔
        Role.output = .filter 1 ∧ ["_id", "p_1"] = ["_id", "p_1"]) ∧
      (variableName .output ["_id", "p_1"] = rootName ↔
        Role.output = .node ∧ ["_id", "p_1"] = []) :=
  have h : Role.output.Names ["_id", "p_1"] := ⟨"_id.p_1", by decide, by decide⟩
  have h' : (Role.filter 1).Names ["_id", "p_1"] :=
    .ofFields (List.all_eq_true.mp (by decide)) nofun
  ⟨⟨h, h'⟩, variableName_eq_iff h h'⟩

/-! ## Reading names back -/

/-- Whether a path begins with a reserved key and goes on after it. -/
def goesOnAfterReserved : List String → Bool
  | key :: _ :: _ => key = idKey || key = typeKey
  | _ => false

theorem goesOnAfterReserved_cons {key : String} {rest : List String} :
    goesOnAfterReserved (key :: rest) = true ↔ (key = idKey ∨ key = typeKey) ∧ rest ≠ [] := by
  cases rest <;> simp [goesOnAfterReserved]

/-- Only the reserved keys begin with an underscore. -/
theorem head?_of_isFieldSegment {key : String} (h : isFieldSegment key = true) :
    key.toList.head? = some '_' ↔ key = idKey ∨ key = typeKey := by
  constructor
  · intro hhead
    rw [isFieldSegment, Bool.or_eq_true, Bool.or_eq_true, decide_eq_true_eq,
      decide_eq_true_eq] at h
    refine h.resolve_right fun hletter => ?_
    obtain ⟨cs, hcs⟩ := List.head?_eq_some_iff.mp hhead
    rw [hcs] at hletter
    cases hletter
  · rintro (rfl | rfl) <;> decide

/-- A name begins with the first of its pieces. -/
theorem head?_of_split {name piece : String} {rest : List String}
    (h : Text.split Role.separator name = piece :: rest) (hne : piece ≠ "") :
    name.toList.head? = piece.toList.head? := by
  obtain ⟨cs, hcs⟩ := Text.toList_join_cons Role.separator piece rest
  obtain ⟨c, ds, hpiece⟩ := List.exists_cons_of_ne_nil fun he =>
    hne (String.toList_eq_nil_iff.mp he)
  rw [← Text.join_split Role.separator name, h, hcs, hpiece]
  rfl

/-- The variables of the other roles are taken for no columns. -/
theorem outputSegments?_of_ne_output (h : role.Names segments) (hrole : role ≠ .output) :
    outputSegments? (variableName role segments) = none := by
  obtain ⟨tag, rest, hpieces, htag, hunderscore⟩ := namePieces_internal hrole segments
  have hsplit := split_variableName h.plain h.ne_nil
  rw [hpieces] at hsplit
  have htagged : tag ≠ "" := by
    rintro rfl
    cases hunderscore
  have hne {key : String} (hkey : Text.split Role.separator key = [key])
      (hfield : isFieldSegment key = true) : variableName role segments ≠ key := fun he => by
    rw [he, hkey] at hsplit
    rw [← (List.cons.inj hsplit).1, hfield] at htag
    cases htag
  exact if_pos ⟨(head?_of_split hsplit htagged).trans hunderscore,
    hne (by decide) (by decide), hne (by decide) (by decide)⟩

/-- The name of a column is read back unless the field goes on after a reserved key. -/
theorem outputSegments?_output (h : Role.output.Names segments) :
    outputSegments? (variableName .output segments) =
      if goesOnAfterReserved segments then none else some segments := by
  have hsplit := split_variableName h.plain h.ne_nil
  rw [namePieces_output] at hsplit
  obtain ⟨key, rest, rfl⟩ := List.exists_cons_of_ne_nil (h.ne_nil rfl)
  have hkey := h.isFieldSegment_of_mem key List.mem_cons_self
  have hhead : (variableName .output (key :: rest)).toList.head? = some '_' ↔
      key = idKey ∨ key = typeKey := by
    rw [head?_of_split hsplit (ne_empty_of_isFieldSegment hkey), head?_of_isFieldSegment hkey]
  have hwhole {reserved : String} (hreserved : Text.split Role.separator reserved = [reserved]) :
      variableName .output (key :: rest) = reserved ↔ key = reserved ∧ rest = [] := by
    constructor
    · intro he
      rw [he, hreserved] at hsplit
      obtain ⟨rfl, rfl⟩ := List.cons.inj hsplit
      exact ⟨rfl, rfl⟩
    · rintro ⟨rfl, rfl⟩
      exact variableName_output key
  have hid : variableName .output (key :: rest) = idKey ↔ key = idKey ∧ rest = [] :=
    hwhole (by decide)
  have htype : variableName .output (key :: rest) = typeKey ↔ key = typeKey ∧ rest = [] :=
    hwhole (by decide)
  have hcondition : ((variableName .output (key :: rest)).toList.head? = some '_' ∧
      variableName .output (key :: rest) ≠ idKey ∧
      variableName .output (key :: rest) ≠ typeKey) ↔
        goesOnAfterReserved (key :: rest) = true := by
    rw [hhead, Ne, hid, Ne, htype, goesOnAfterReserved_cons]
    constructor
    · rintro ⟨hreserved, hnotId, hnotType⟩
      exact ⟨hreserved, fun hnil => hreserved.elim (fun he => hnotId ⟨he, hnil⟩)
        fun he => hnotType ⟨he, hnil⟩⟩
    · rintro ⟨hreserved, hne⟩
      exact ⟨hreserved, fun he => hne he.2, fun he => hne he.2⟩
  simp only [outputSegments?, hcondition, hsplit]

/-- The column of every field that a query may have is read back as the segments of the field,
unless these go on after a reserved key; the variables of the other roles are read as none. -/
theorem inverted_of_validateNames {q : Spec} (hq : q.validateNames = .ok ()) :
    (∀ name ∈ q.names, ∃ v, outputVariable name = .ok v ∧
      outputSegments? v.name =
        if goesOnAfterReserved (Text.split '.' name) then none
        else some (Text.split '.' name)) ∧
    ∀ role segments, role ≠ .output → role.Names segments →
      outputSegments? (variableName role segments) = none := by
  refine ⟨fun name hname => ?_, fun role segments hrole h => outputSegments?_of_ne_output h hrole⟩
  have hnames : Role.output.Names (Text.split '.' name) :=
    .ofFieldName (Spec.isFieldName_of_validateNames hq name hname)
  exact ⟨_, variableAt_of_names hnames, outputSegments?_output hnames⟩

/-- A query for the identifier, for the name of the author, and for the name of the document
under a field that goes on after a reserved key. -/
def Spec.ofDottedNames : Spec where
  fields := [("_id", .scalar (.ofText "_id")), ("_id.name", .scalar (.ofText "name")),
    ("author.name", .scalar (.ofText "author.name"))]

theorem inverted_ofDottedNames :
    Spec.ofDottedNames.validateNames = .ok () ∧
      (∀ name ∈ ["_id", "_id.name", "author.name"], ∃ v, outputVariable name = .ok v ∧
        outputSegments? v.name =
          if goesOnAfterReserved (Text.split '.' name) then none
          else some (Text.split '.' name)) ∧
      ∀ role segments, role ≠ .output → role.Names segments →
        outputSegments? (variableName role segments) = none :=
  have h : Spec.ofDottedNames.validateNames = .ok () := rfl
  ⟨h, inverted_of_validateNames h⟩

/-- The column of the name of the document is read as an internal variable. -/
theorem not_inverted_of_goesOn :
    ¬∀ q : Spec, q.validateNames = .ok () → ∀ name ∈ q.names, ∃ v, outputVariable name = .ok v ∧
      outputSegments? v.name = some (Text.split '.' name) := by
  intro h
  obtain ⟨v, hv, hsegments⟩ := h Spec.ofDottedNames rfl "_id.name" (by decide)
  have hname : v.name = variableName .output ["_id", "name"] := name_of_variableAt hv
  have hnone : outputSegments? (variableName .output ["_id", "name"]) = none := by decide
  rw [hname, hnone] at hsegments
  cases hsegments

end DocGraph
