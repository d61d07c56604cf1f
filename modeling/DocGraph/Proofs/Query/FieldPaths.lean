import DocGraph.Proofs.Schema.Steps
import DocGraph.Proofs.Text.Segments

/-!
# Optional marks

A field path is read from segments that are names of fields, with or without a mark in front
(`IsWritten`). Its path is that of the text without marks (`path_ofText`), its optional part
begins at the first segment with a mark (`optionalFrom_ofText_eq_some`), and its own text is read
as the same field path (`ofText_text`). What is read is `WellFormed`, and two well-formed field
paths belong to one optional block just when they are the same up to the first mark, which is at
the same place in both (`optionalGroup?_eq_optionalGroup?`).

The main statement is `marks_consistent`.
-/

namespace DocGraph

/-- A path is read from its text if its segments are no empty texts and have no dots. -/
theorem Path.ofText_text {p : Path}
    (h : ∀ segment ∈ p.segments, segment ≠ "" ∧ '.' ∉ segment.toList) : Path.ofText p.text = p := by
  obtain ⟨segments⟩ := p
  rw [text, ofText]
  cases segments with
  | nil => rfl
  | cons segment rest =>
    rw [Text.split_join '.' _ (List.cons_ne_nil _ _) fun segment hsegment => (h segment hsegment).2,
      List.filter_eq_self.mpr fun segment hsegment => decide_eq_true (h segment hsegment).1]

namespace FieldPath

/-- A segment with the mark in front. -/
def marked (segment : String) : String :=
  String.singleton optionalMark ++ segment

/-- A text without any marks. -/
def withoutMarks (s : String) : String :=
  String.ofList (s.toList.filter (· ≠ optionalMark))

/-- Whether a segment is the name of a field, with at most one mark. -/
def IsSegment (segment : String) : Prop :=
  ∃ name, isFieldSegment name = true ∧ (segment = name ∨ segment = marked name)

/-- Whether a text consists of such segments. There may be empty ones between its dots. -/
def IsWritten (raw : String) : Prop :=
  ∀ segment ∈ Text.split '.' raw, segment ≠ "" → IsSegment segment

/-- What a field path is that has been read: its segments are names of fields, and its optional
part begins with one of them. -/
structure WellFormed (p : FieldPath) : Prop where
  isFieldSegment : ∀ segment ∈ p.path.segments, isFieldSegment segment = true
  optionalFrom_lt : ∀ n, p.optionalFrom = some n → n < p.path.segments.length

variable {segment name raw raw' : String} {segments : List String} {p p' : FieldPath} {n : Nat}

/-! ## Marked segments -/

@[simp] theorem toList_marked (segment : String) :
    (marked segment).toList = optionalMark :: segment.toList := by
  rw [marked, String.toList_append, String.toList_singleton, List.singleton_append]

@[simp] theorem isMarked_marked (segment : String) : isMarked (marked segment) = true := by
  simp [isMarked]

@[simp] theorem unmarked_marked (segment : String) : unmarked (marked segment) = segment := by
  simp [unmarked]

theorem marked_ne_empty (segment : String) : marked segment ≠ "" := fun he => by
  have h := toList_marked segment
  rw [he] at h
  cases h

theorem optionalMark_notMem (h : isFieldSegment segment = true) :
    optionalMark ∉ segment.toList :=
  notMem_of_isFieldSegment h rfl

theorem isMarked_of_isFieldSegment (h : isFieldSegment segment = true) :
    isMarked segment = false := by
  rw [isMarked, beq_eq_false_iff_ne]
  exact fun hhead => optionalMark_notMem h (List.mem_of_mem_head? hhead)

theorem unmarked_of_not_isMarked (h : isMarked segment = false) : unmarked segment = segment := by
  unfold unmarked
  split
  · next c rest hsegment =>
    rw [if_neg]
    rintro rfl
    rw [isMarked, hsegment] at h
    cases h
  · rfl

theorem unmarked_of_isFieldSegment (h : isFieldSegment segment = true) :
    unmarked segment = segment :=
  unmarked_of_not_isMarked (isMarked_of_isFieldSegment h)

theorem isMarked_iff : isMarked segment = true ↔ ∃ rest, segment = marked rest := by
  constructor
  · intro h
    rw [isMarked, beq_iff_eq] at h
    obtain ⟨cs, hcs⟩ := List.head?_eq_some_iff.mp h
    refine ⟨String.ofList cs, String.toList_inj.mp ?_⟩
    rw [hcs, toList_marked, String.toList_ofList]
  · rintro ⟨rest, rfl⟩
    exact isMarked_marked rest

theorem withoutMarks_of_isFieldSegment (h : isFieldSegment name = true) :
    withoutMarks name = name := by
  rw [withoutMarks, List.filter_eq_self.mpr, String.ofList_toList]
  exact fun c hc => decide_eq_true fun he => optionalMark_notMem h (he ▸ hc)

theorem withoutMarks_marked (segment : String) :
    withoutMarks (marked segment) = withoutMarks segment := by
  rw [withoutMarks, toList_marked, List.filter_cons_of_neg (by simp)]
  rfl

/-- Without its mark, a segment is the name of a field. -/
theorem IsSegment.unmarked (h : IsSegment segment) :
    isFieldSegment (unmarked segment) = true ∧
      withoutMarks segment = FieldPath.unmarked segment := by
  obtain ⟨name, hname, rfl | rfl⟩ := h
  · rw [unmarked_of_isFieldSegment hname, withoutMarks_of_isFieldSegment hname]
    exact ⟨hname, rfl⟩
  · rw [unmarked_marked, withoutMarks_marked, withoutMarks_of_isFieldSegment hname]
    exact ⟨hname, rfl⟩

theorem isSegment_iff : IsSegment segment ↔ isFieldSegment (FieldPath.unmarked segment) = true := by
  refine ⟨fun h => h.unmarked.1, fun h => ⟨FieldPath.unmarked segment, h, ?_⟩⟩
  cases hmark : isMarked segment with
  | true =>
    obtain ⟨rest, rfl⟩ := isMarked_iff.mp hmark
    exact .inr (by rw [unmarked_marked])
  | false => exact .inl (unmarked_of_not_isMarked hmark).symm

instance : DecidablePred IsSegment :=
  fun _ => decidable_of_iff _ isSegment_iff.symm

instance (raw : String) : Decidable (IsWritten raw) :=
  inferInstanceAs (Decidable (∀ segment ∈ Text.split '.' raw, segment ≠ "" → IsSegment segment))

/-! ## Reading -/

theorem isSegment_of_mem (h : IsWritten raw) :
    ∀ segment ∈ (Path.ofText raw).segments, IsSegment segment := fun segment hsegment => by
  obtain ⟨hmem, hne⟩ := List.mem_filter.mp hsegment
  exact h segment hmem (of_decide_eq_true hne)

/-- What is read is well-formed. -/
theorem wellFormed_ofText (h : IsWritten raw) : (ofText raw).WellFormed where
  isFieldSegment segment hsegment := by
    obtain ⟨written, hwritten, rfl⟩ := List.mem_map.mp hsegment
    exact (isSegment_of_mem h written hwritten).unmarked.1
  optionalFrom_lt n hn := by
    obtain ⟨hlt, -⟩ := List.findIdx?_eq_some_iff_getElem.mp hn
    exact (List.length_map unmarked).symm ▸ hlt

/-- The path is that of the text without marks. -/
theorem path_ofText (h : IsWritten raw) : (ofText raw).path = Path.ofText (withoutMarks raw) := by
  have hsplit : Text.split '.' (withoutMarks raw) = (Text.split '.' raw).map withoutMarks :=
    Text.split_filter rfl raw
  have hempty : ∀ segment ∈ Text.split '.' raw,
      decide (segment ≠ "") = ((fun segment => decide (segment ≠ "")) ∘ withoutMarks) segment :=
    fun segment hsegment => by
      by_cases hne : segment = ""
      · rw [hne]
        rfl
      · obtain ⟨hname, hwithout⟩ := (h segment hsegment hne).unmarked
        rw [Function.comp_apply, hwithout, decide_eq_true (ne_empty_of_isFieldSegment hname),
          decide_eq_true hne]
  rw [Path.ofText, hsplit, List.filter_map, ← List.filter_congr hempty]
  exact congrArg Path.mk (List.map_congr_left fun segment hsegment =>
    (isSegment_of_mem h segment hsegment).unmarked.2.symm)

/-- The optional part begins at the first segment with a mark. -/
theorem optionalFrom_ofText_eq_some : (ofText raw).optionalFrom = some n ↔
    (∃ rest, (Path.ofText raw).segments[n]? = some (marked rest)) ∧
      ∀ i < n, ∀ rest, (Path.ofText raw).segments[i]? ≠ some (marked rest) := by
  rw [ofText, List.findIdx?_eq_some_iff_getElem]
  constructor
  · rintro ⟨hlt, hmark, hbefore⟩
    obtain ⟨rest, hrest⟩ := isMarked_iff.mp hmark
    refine ⟨⟨rest, by rw [List.getElem?_eq_getElem hlt, hrest]⟩, fun i hi rest' hrest' => ?_⟩
    obtain ⟨_, hsegment⟩ := List.getElem?_eq_some_iff.mp hrest'
    exact hbefore i hi (isMarked_iff.mpr ⟨rest', hsegment⟩)
  · rintro ⟨⟨rest, hrest⟩, hbefore⟩
    obtain ⟨hlt, hsegment⟩ := List.getElem?_eq_some_iff.mp hrest
    refine ⟨hlt, isMarked_iff.mpr ⟨rest, hsegment⟩, fun i hi hmark => ?_⟩
    obtain ⟨rest', hsegment'⟩ := isMarked_iff.mp hmark
    exact hbefore i hi rest' (by
      rw [List.getElem?_eq_getElem (Nat.lt_trans hi hlt), hsegment'])

theorem optionalFrom_ofText_eq_none : (ofText raw).optionalFrom = none ↔
    ∀ rest, marked rest ∉ (Path.ofText raw).segments := by
  simp only [ofText, List.findIdx?_eq_none_iff, ← Bool.not_eq_true, isMarked_iff, not_exists]
  exact ⟨fun h rest hmem => h _ hmem rest rfl, fun h segment hmem rest he => h rest (he ▸ hmem)⟩

/-! ## Writing -/

/-- The segments are written with the mark in its place. -/
theorem markedSegments_of_some (hn : p.optionalFrom = some n) :
    p.markedSegments = p.path.segments.modify n marked := by
  rw [markedSegments, hn]
  rfl

theorem map_unmarked (h : ∀ segment ∈ segments, isFieldSegment segment = true) :
    segments.map unmarked = segments :=
  (List.map_congr_left fun segment hsegment =>
    unmarked_of_isFieldSegment (h segment hsegment)).trans (List.map_id _)

/-- Without the mark that is put on one of them, segments are as before. -/
theorem map_unmarked_modify (h : ∀ segment ∈ segments, isFieldSegment segment = true) (n : Nat) :
    (segments.modify n marked).map unmarked = segments := by
  refine List.ext_getElem (by simp) fun i _ hi => ?_
  rw [List.getElem_map, List.getElem_modify]
  split
  · rw [unmarked_marked]
  · exact unmarked_of_isFieldSegment (h _ (List.getElem_mem hi))

theorem findIdx?_modify (h : ∀ segment ∈ segments, isFieldSegment segment = true)
    (hn : n < segments.length) : (segments.modify n marked).findIdx? isMarked = some n := by
  rw [List.findIdx?_eq_some_iff_getElem]
  refine ⟨by simpa using hn, ?_, fun i hi => ?_⟩
  · rw [List.getElem_modify, if_pos rfl, isMarked_marked]
  · rw [List.getElem_modify, if_neg (Nat.ne_of_gt hi),
      isMarked_of_isFieldSegment (h _ (List.getElem_mem _))]
    exact Bool.false_ne_true

/-- With or without the mark, the segments can be told apart in a dotted text. -/
theorem WellFormed.plain (h : p.WellFormed) :
    ∀ segment ∈ p.markedSegments, segment ≠ "" ∧ '.' ∉ segment.toList := by
  have hname {name : String} (hname : name ∈ p.path.segments) :
      name ≠ "" ∧ '.' ∉ name.toList :=
    ⟨ne_empty_of_isFieldSegment (h.isFieldSegment name hname),
      notMem_of_isFieldSegment (h.isFieldSegment name hname) rfl⟩
  intro segment hsegment
  cases hn : p.optionalFrom with
  | none =>
    rw [markedSegments, hn] at hsegment
    exact hname hsegment
  | some n =>
    rw [markedSegments_of_some hn] at hsegment
    obtain ⟨i, hi, rfl⟩ := List.getElem_of_mem hsegment
    rw [List.getElem_modify]
    split
    · refine ⟨marked_ne_empty _, ?_⟩
      rw [toList_marked, List.mem_cons, not_or]
      exact ⟨by decide, (hname (List.getElem_mem _)).2⟩
    · exact hname (List.getElem_mem _)

/-- A field path is read from its own text. -/
theorem ofText_text (h : p.WellFormed) : ofText p.text = p := by
  have hsegments : (Path.ofText p.text).segments = p.markedSegments :=
    congrArg Path.segments (Path.ofText_text (p := ⟨p.markedSegments⟩) h.plain)
  rw [ofText, hsegments]
  obtain ⟨⟨segments⟩, optionalFrom⟩ := p
  cases optionalFrom with
  | none =>
    rw [markedSegments, map_unmarked h.isFieldSegment, List.findIdx?_eq_none_iff.mpr]
    exact fun segment hsegment => isMarked_of_isFieldSegment (h.isFieldSegment segment hsegment)
  | some n =>
    rw [markedSegments_of_some rfl, map_unmarked_modify h.isFieldSegment,
      findIdx?_modify h.isFieldSegment (h.optionalFrom_lt n rfl)]

/-! ## Optional blocks -/

theorem optionalGroup?_of_some (hn : p.optionalFrom = some n) :
    p.optionalGroup? = some (Text.join '.' (p.markedSegments.take (n + 1))) := by
  rw [optionalGroup?, hn, Option.map_some]

/-- The group of a field path has the first segments, and tells how many there are. -/
theorem WellFormed.group (h : p.WellFormed) (hn : p.optionalFrom = some n) :
    (p.markedSegments.take (n + 1)).length = n + 1 ∧
      (p.markedSegments.take (n + 1)).map unmarked = (p.path.take (n + 1)).segments := by
  have hlt := h.optionalFrom_lt n hn
  rw [markedSegments_of_some hn]
  constructor
  · rw [List.length_take, List.length_modify]
    omega
  · rw [List.map_take, map_unmarked_modify h.isFieldSegment]
    rfl

/-- Field paths with optional parts belong to one block just when they are the same up to the
first mark, which is at the same place in both. -/
theorem optionalGroup?_eq_optionalGroup? {n' : Nat} (h : p.WellFormed) (h' : p'.WellFormed)
    (hn : p.optionalFrom = some n) (hn' : p'.optionalFrom = some n') :
    p.optionalGroup? = p'.optionalGroup? ↔
      n = n' ∧ p.path.take (n + 1) = p'.path.take (n' + 1) := by
  obtain ⟨hlength, hunmarked⟩ := h.group hn
  obtain ⟨hlength', hunmarked'⟩ := h'.group hn'
  rw [optionalGroup?_of_some hn, optionalGroup?_of_some hn', Option.some.injEq]
  constructor
  · intro htexts
    have hlists : p.markedSegments.take (n + 1) = p'.markedSegments.take (n' + 1) :=
      Text.join_inj (List.ne_nil_of_length_eq_add_one hlength)
        (List.ne_nil_of_length_eq_add_one hlength')
        (fun segment hsegment => (h.plain segment (List.mem_of_mem_take hsegment)).2)
        (fun segment hsegment => (h'.plain segment (List.mem_of_mem_take hsegment)).2) htexts
    rw [hlists, hlength'] at hlength
    rw [hlists, hunmarked'] at hunmarked
    exact ⟨(Nat.succ.inj hlength).symm, congrArg Path.mk hunmarked.symm⟩
  · rintro ⟨rfl, hpaths⟩
    have hsegments : p.path.segments.take (n + 1) = p'.path.segments.take (n + 1) :=
      congrArg Path.segments hpaths
    rw [markedSegments_of_some hn, markedSegments_of_some hn', List.take_modify, List.take_modify,
      hsegments]

/-- Whether a field path is what a text says, and what its own text says again. -/
structure IsReadFrom (p : FieldPath) (raw : String) : Prop where
  path : p.path = Path.ofText (withoutMarks raw)
  /-- The optional part begins at the first segment with a mark. -/
  optionalFrom : ∀ n, p.optionalFrom = some n ↔
    (∃ rest, (Path.ofText raw).segments[n]? = some (marked rest)) ∧
      ∀ i < n, ∀ rest, (Path.ofText raw).segments[i]? ≠ some (marked rest)
  required : p.optionalFrom = none ↔ ∀ rest, marked rest ∉ (Path.ofText raw).segments
  text : ofText p.text = p
  group : p.optionalGroup?.isSome = true ↔ p.isOptional = true

/-- Whether two field paths are optional, with the same segments up to the first mark, which is
at the same place in both. -/
def ShareMark (p p' : FieldPath) : Prop :=
  ∃ n, p.optionalFrom = some n ∧ p'.optionalFrom = some n ∧
    p.path.take (n + 1) = p'.path.take (n + 1)

theorem isSome_optionalGroup? (p : FieldPath) : p.optionalGroup?.isSome = p.isOptional :=
  Option.isSome_map

theorem isReadFrom_ofText (h : IsWritten raw) : (ofText raw).IsReadFrom raw where
  path := path_ofText h
  optionalFrom _ := optionalFrom_ofText_eq_some
  required := optionalFrom_ofText_eq_none
  text := ofText_text (wellFormed_ofText h)
  group := by rw [isSome_optionalGroup?]

/-- There is a group that well-formed field paths both have just when they share their first
mark. -/
theorem exists_optionalGroup?_iff (h : p.WellFormed) (h' : p'.WellFormed) :
    (∃ group, p.optionalGroup? = some group ∧ p'.optionalGroup? = some group) ↔
      p.ShareMark p' := by
  constructor
  · rintro ⟨group, hgroup, hgroup'⟩
    obtain ⟨n, hn, -⟩ := Option.map_eq_some_iff.mp hgroup
    obtain ⟨n', hn', -⟩ := Option.map_eq_some_iff.mp hgroup'
    obtain ⟨rfl, hpaths⟩ :=
      (optionalGroup?_eq_optionalGroup? h h' hn hn').mp (hgroup.trans hgroup'.symm)
    exact ⟨n, hn, hn', hpaths⟩
  · rintro ⟨n, hn, hn', hpaths⟩
    have hgroups := (optionalGroup?_eq_optionalGroup? h h' hn hn').mpr ⟨rfl, hpaths⟩
    exact ⟨_, optionalGroup?_of_some hn, hgroups.symm.trans (optionalGroup?_of_some hn)⟩

/-- The marks of two field paths are read, written and grouped in the same way: they have one
group just when they share their first mark, and are alike in having none just when neither has
a mark. -/
theorem marks_consistent (h : IsWritten raw) (h' : IsWritten raw') :
    (ofText raw).IsReadFrom raw ∧ (ofText raw').IsReadFrom raw' ∧
      ((∃ group, (ofText raw).optionalGroup? = some group ∧
        (ofText raw').optionalGroup? = some group) ↔ (ofText raw).ShareMark (ofText raw')) ∧
      ((ofText raw).optionalGroup? = (ofText raw').optionalGroup? ↔
        (ofText raw).ShareMark (ofText raw') ∨
          (ofText raw).isOptional = false ∧ (ofText raw').isOptional = false) := by
  have hgroup := exists_optionalGroup?_iff (wellFormed_ofText h) (wellFormed_ofText h')
  refine ⟨isReadFrom_ofText h, isReadFrom_ofText h', hgroup, ?_⟩
  rw [← hgroup, ← isSome_optionalGroup?, ← isSome_optionalGroup?]
  cases (ofText raw).optionalGroup? <;> cases (ofText raw').optionalGroup? <;> simp [eq_comm]

/-- Two fields of an editor, whom an author need not have. The second one is written with stray
dots and with a mark more. -/
theorem marks_consistent_editor :
    IsWritten "author.?editor.name" ∧ IsWritten ".author..?editor.?age" ∧
      (ofText ".author..?editor.?age").path = Path.ofText (withoutMarks ".author..?editor.?age") ∧
      ofText (ofText ".author..?editor.?age").text = ofText ".author..?editor.?age" ∧
      (ofText "author.?editor.name").ShareMark (ofText ".author..?editor.?age") := by
  have hname : IsWritten "author.?editor.name" := by decide +kernel
  have hage : IsWritten ".author..?editor.?age" := by decide +kernel
  obtain ⟨-, hread, hgroup, -⟩ := marks_consistent hname hage
  exact ⟨hname, hage, hread.path, hread.text,
    hgroup.mp ⟨"author.?editor", by decide +kernel, by decide +kernel⟩⟩

end FieldPath

end DocGraph
