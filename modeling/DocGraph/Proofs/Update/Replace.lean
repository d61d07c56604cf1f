import DocGraph.Proofs.Schema.Built
import DocGraph.Proofs.Select.Group
import DocGraph.Proofs.Sparql.Numbers
import DocGraph.Proofs.Sparql.Updates
import DocGraph.Proofs.Update.Statements

/-!
# Saving, deleting and replacing

What the three updates of a document do to a set of quads. Saving adds the
quads of the document (`mem_apply_insertion`), deleting takes away the quads
about its subject (`mem_apply_deletion`), and replacing does both
(`mem_apply_replacement`). All three agree about the subject, its statements and
the graph, which `Stored` holds. So what replacing leaves about the subject is the
statements that the document has (`replace_deletes_then_saves`).
-/

namespace DocGraph

open Rdf (Dataset GroundQuad Iri Term)
open Sparql (Context Pattern Quad Solution Solutions Store Update instances)

namespace Target

/-- The subject of a document and its statements. -/
structure Stored (t : Target) (d : Document) (subject : Iri) (statements : List (Iri × Term)) :
    Prop where
  intro ::
  exists_identity : ∃ identity, d.identity = .ok identity ∧
    t.schema.instanceUri identity.model identity.id = .ok subject ∧
    d.statements t.schema identity.model = .ok statements

/-- The quads of statements about a subject. -/
def quadsOf (t : Target) (subject : Iri) (statements : List (Iri × Term)) : Dataset :=
  (statements.map fun (p, o) => GroundQuad.mk ⟨.iri subject, p, o⟩ t.graph).toFinset

/-- Whether a quad is a statement about a subject in the target graph. -/
def IsAbout (t : Target) (subject : Iri) (q : GroundQuad) : Prop :=
  q.statement.subject = .iri subject ∧ q.graph = t.graph

/-- The templates of statements about a subject. -/
def templates (t : Target) (subject : Iri) (statements : List (Iri × Term)) : List Quad :=
  statements.map fun (p, o) => t.quad subject (.iri p) (.term o)

/-- The update that adds statements about a subject. -/
def insertion (t : Target) (subject : Iri) (statements : List (Iri × Term)) : Update :=
  .insertData (t.templates subject statements)

/-- The update that takes away all statements about a subject. -/
def deletion (t : Target) (subject : Iri) : Update :=
  .modify [⟨anyStatement subject, t.graph⟩] [] (t.inGraph (allStatements subject))

/-- The update that takes away all statements about a subject and adds others. -/
def replacement (t : Target) (subject : Iri) (statements : List (Iri × Term)) : Update :=
  .modify [⟨anyStatement subject, t.graph⟩] (t.templates subject statements)
    (t.inGraph (.leftJoin .empty (allStatements subject)))

variable {t : Target} {d : Document} {subject : Iri} {statements : List (Iri × Term)}

theorem isAbout_of_mem_quadsOf {q : GroundQuad} (h : q ∈ t.quadsOf subject statements) :
    t.IsAbout subject q := by
  obtain ⟨⟨p, o⟩, -, rfl⟩ := List.mem_map.mp (List.mem_toFinset.mp h)
  exact ⟨rfl, rfl⟩

theorem mem_quadsOf {q : GroundQuad} (hq : t.IsAbout subject q) :
    q ∈ t.quadsOf subject statements ↔
      (q.statement.predicate, q.statement.object) ∈ statements := by
  obtain ⟨⟨subject', p, o⟩, graph⟩ := q
  obtain ⟨rfl, rfl⟩ := hq
  rw [quadsOf, List.mem_toFinset, List.mem_map]
  constructor
  · rintro ⟨⟨p', o'⟩, hmem, he⟩
    cases he
    exact hmem
  · exact fun hmem => ⟨_, hmem, rfl⟩

/-! ## What the updates are -/

theorem save_eq_ok {u : Update} :
    t.save d = .ok u ↔
      ∃ subject statements, t.Stored d subject statements ∧ t.insertion subject statements = u := by
  simp only [save, statementQuads, Outcome.bind_eq_ok, Outcome.pure_eq, Except.ok.injEq]
  constructor
  · rintro ⟨identity, hi, subject, hs, quads, ⟨statements, hst, rfl⟩, rfl⟩
    exact ⟨subject, statements, ⟨identity, hi, hs, hst⟩, rfl⟩
  · rintro ⟨subject, statements, ⟨identity, hi, hs, hst⟩, rfl⟩
    exact ⟨identity, hi, subject, hs, _, ⟨statements, hst, rfl⟩, rfl⟩

theorem replace_of_stored (h : t.Stored d subject statements) :
    t.replace d = .ok (t.replacement subject statements) := by
  obtain ⟨identity, hi, hs, hst⟩ := h
  simp only [replace, statementQuads, hi, hs, hst, Outcome.ok_bind, Outcome.pure_eq]
  rfl

theorem delete_of_stored (h : t.Stored d subject statements) :
    t.delete d = .ok (t.deletion subject) := by
  obtain ⟨identity, hi, hs, -⟩ := h
  simp only [delete, hi, hs, Outcome.ok_bind, Outcome.pure_eq]
  rfl

/-- Saving and replacing take the same steps that may fail, in one order. -/
theorem replace_of_save_error {e : Error} (h : t.save d = .error e) : t.replace d = .error e := by
  unfold save at h
  unfold replace
  cases hi : d.identity with
  | error e' => simpa [hi] using h
  | ok identity =>
    rw [hi, Outcome.ok_bind] at h
    rw [Outcome.ok_bind]
    cases hs : t.schema.instanceUri identity.model identity.id with
    | error e' => simpa [hs] using h
    | ok subject =>
      rw [hs, Outcome.ok_bind] at h
      rw [Outcome.ok_bind]
      cases hq : t.statementQuads identity subject d with
      | error e' => simpa [hq] using h
      | ok quads => simp [hq] at h

/-! ## What their patterns match -/

/-- The solution of the wildcard for one statement. -/
def statementSolution (p : Iri) (o : Term) : Solution :=
  (Solution.empty.set ⟨"p"⟩ (.iri p)).set ⟨"o"⟩ o

theorem eval_inGraph (t : Target) (p : Pattern) (s : Store) (data : Dataset) :
    (t.inGraph p).eval { store := s, data := data } =
      p.eval { store := s, data := data, graph := t.graph } := by
  obtain ⟨schema, graph⟩ := t
  cases graph with
  | none => rfl
  | some g => exact Pattern.eval.eq_7 _ _ _

/-- The wildcard has one solution for each statement about the subject. -/
theorem mem_eval_allStatements {c : Context} (hc : c.given = .empty) {μ : Solution} :
    μ ∈ (allStatements subject).eval c ↔
      ∃ p o, ⟨.iri subject, p, o⟩ ∈ c.statements ∧ μ = statementSolution p o := by
  have hp : c.value? .empty ⟨"p"⟩ = none := by simp [Context.value?, hc]
  have ho (p : Iri) : c.value? (Solution.empty.set ⟨"p"⟩ (.iri p)) ⟨"o"⟩ = none := by
    rw [c.value?_set_of_ne _ (by decide)]
    simp [Context.value?, hc]
  have hmatch (s : Rdf.Statement) :
      (anyStatement subject).match? c .empty s =
        if .iri subject = s.subject then some (statementSolution s.predicate s.object)
        else none := by
    simp only [anyStatement, Sparql.Triple.match?, Sparql.Node.match?, Sparql.Predicate.match?]
    by_cases h : .iri subject = s.subject
    · simp [h, hp, ho, statementSolution]
    · simp [h]
  rw [allStatements, Pattern.eval, Sparql.solutionsOf_singleton, Sparql.Triple.solutions,
    Multiset.mem_filterMap]
  simp only [hmatch]
  constructor
  · rintro ⟨⟨s, p, o⟩, hs, hm⟩
    by_cases h : .iri subject = s
    · simp only [h, if_true, Option.some.injEq] at hm
      exact ⟨p, o, h ▸ hs, hm.symm⟩
    · simp [h] at hm
  · rintro ⟨p, o, hs, rfl⟩
    exact ⟨_, hs, by simp⟩

theorem instance?_anyStatement (p : Iri) (o : Term) (g : Option Iri) :
    Quad.instance? (statementSolution p o) ⟨anyStatement subject, g⟩ =
      some ⟨⟨.iri subject, p, o⟩, g⟩ := by
  rfl

theorem instance?_anyStatement_empty (g : Option Iri) :
    Quad.instance? .empty ⟨anyStatement subject, g⟩ = none := by
  rfl

/-- The wildcard deletes the quads about the subject, whether or not the empty
solution stands in for it where there are none. -/
theorem mem_instances_anyStatement {s : Store} {data : Dataset} {ss : Solutions}
    (hss : ∀ μ, μ ≠ .empty → (μ ∈ ss ↔ μ ∈ (t.inGraph (allStatements subject)).eval
      { store := s, data := data })) {q : GroundQuad} :
    q ∈ instances ss [⟨anyStatement subject, t.graph⟩] ↔ q ∈ data ∧ t.IsAbout subject q := by
  have hne (p : Iri) (o : Term) : statementSolution p o ≠ .empty := fun h => by
    simpa [statementSolution] using congrFun h ⟨"o"⟩
  simp only [Sparql.mem_instances, List.mem_singleton, exists_eq_left]
  constructor
  · rintro ⟨μ, hμ, hq⟩
    have hμne : μ ≠ .empty := fun h => by simp [h, instance?_anyStatement_empty] at hq
    rw [hss μ hμne, eval_inGraph, mem_eval_allStatements rfl] at hμ
    obtain ⟨p, o, hs, rfl⟩ := hμ
    rw [instance?_anyStatement, Option.some.injEq] at hq
    subst hq
    exact ⟨Dataset.mem_graph.mp hs, rfl, rfl⟩
  · obtain ⟨⟨subject', p, o⟩, g⟩ := q
    rintro ⟨hq, rfl, rfl⟩
    refine ⟨statementSolution p o, ?_, instance?_anyStatement p o t.graph⟩
    rw [hss _ (hne p o), eval_inGraph, mem_eval_allStatements rfl]
    exact ⟨p, o, Dataset.mem_graph.mpr hq, rfl⟩

/-- The templates of statements make their quads once, however many solutions
there are. -/
theorem mem_instances_templates {ss : Solutions} (hss : ∃ μ, μ ∈ ss) {q : GroundQuad} :
    q ∈ instances ss (t.templates subject statements) ↔ q ∈ t.quadsOf subject statements := by
  simp only [Sparql.mem_instances, templates, quadsOf, List.mem_map, List.mem_toFinset]
  constructor
  · rintro ⟨μ, -, _, ⟨⟨p, o⟩, hs, rfl⟩, hq⟩
    exact ⟨⟨p, o⟩, hs, Option.some.inj hq⟩
  · rintro ⟨⟨p, o⟩, hs, rfl⟩
    obtain ⟨μ, hμ⟩ := hss
    exact ⟨μ, hμ, _, ⟨⟨p, o⟩, hs, rfl⟩, rfl⟩

/-! ## What the updates do -/

theorem mem_apply_insertion {s : Store} {data : Dataset} {q : GroundQuad} :
    q ∈ (t.insertion subject statements).apply s data ↔
      q ∈ data ∨ q ∈ t.quadsOf subject statements := by
  rw [insertion, Sparql.mem_apply_insertData,
    mem_instances_templates ⟨.empty, Multiset.mem_singleton_self _⟩]

theorem mem_apply_deletion {s : Store} {data : Dataset} {q : GroundQuad} :
    q ∈ (t.deletion subject).apply s data ↔ q ∈ data ∧ ¬t.IsAbout subject q := by
  rw [deletion, Sparql.mem_apply_modify, mem_instances_anyStatement fun μ _ => Iff.rfl]
  have hnone : q ∉ instances ((t.inGraph (allStatements subject)).eval { store := s, data := data })
      [] := by
    simp [Sparql.mem_instances]
  simp only [hnone, or_false]
  constructor
  · rintro ⟨hq, hn⟩
    exact ⟨hq, fun ha => hn ⟨hq, ha⟩⟩
  · rintro ⟨hq, hn⟩
    exact ⟨hq, fun h => hn h.2⟩

theorem mem_apply_replacement {s : Store} {data : Dataset} {q : GroundQuad} :
    q ∈ (t.replacement subject statements).apply s data ↔
      (q ∈ data ∧ ¬t.IsAbout subject q) ∨ q ∈ t.quadsOf subject statements := by
  set c : Context := { store := s, data := data, graph := t.graph } with hc
  have heval : (t.inGraph (.leftJoin .empty (allStatements subject))).eval
      { store := s, data := data } =
        Solutions.leftJoin {.empty} ((allStatements subject).eval c) := by
    rw [eval_inGraph, Pattern.eval, Sparql.Pattern.eval_empty]
  have hmem (μ : Solution) : μ ∈ Solutions.leftJoin {.empty} ((allStatements subject).eval c) ↔
      μ ∈ (allStatements subject).eval c ∨ μ = .empty ∧ (allStatements subject).eval c = 0 := by
    rw [Solutions.mem_leftJoin, Solutions.unit_join, Multiset.mem_singleton]
    refine or_congr_right (and_congr_right fun h => ?_)
    rw [h, Solutions.empty_extensions]
  have hsome : ∃ μ, μ ∈ Solutions.leftJoin {.empty} ((allStatements subject).eval c) := by
    by_cases h : (allStatements subject).eval c = 0
    · exact ⟨.empty, (hmem _).mpr (.inr ⟨rfl, h⟩)⟩
    · obtain ⟨μ, hμ⟩ := Multiset.exists_mem_of_ne_zero h
      exact ⟨μ, (hmem _).mpr (.inl hμ)⟩
  have hwildcard (μ : Solution) (hμ : μ ≠ .empty) :
      μ ∈ Solutions.leftJoin {.empty} ((allStatements subject).eval c) ↔
        μ ∈ (t.inGraph (allStatements subject)).eval { store := s, data := data } := by
    rw [hmem, eval_inGraph, or_iff_left fun h => hμ h.1]
  rw [replacement, Sparql.mem_apply_modify, heval, mem_instances_templates hsome,
    mem_instances_anyStatement hwildcard]
  refine or_congr_left (and_congr_right fun hq => ?_)
  rw [not_and]
  exact ⟨fun h => h hq, fun h _ => h⟩


/-- Replacing a document is deleting and saving it: it succeeds if saving does,
and fails with the same error. It leaves the statements that the document has as
the only ones about its subject, and all other quads as they are. -/
theorem replace_deletes_then_saves (t : Target) (d : Document) (s : Store) (data : Dataset) :
    match t.save d with
    | .error e => t.replace d = .error e
    | .ok save =>
      ∃ replace delete identity subject,
        t.replace d = .ok replace ∧ t.delete d = .ok delete ∧
        d.identity = .ok identity ∧
        t.schema.instanceUri identity.model identity.id = .ok subject ∧
        replace.apply s data = save.apply s (delete.apply s data) ∧
        (∀ q, t.IsAbout subject q → (q ∈ replace.apply s data ↔
          d.HasStatement t.schema identity.model q.statement.predicate q.statement.object)) ∧
        ∀ q, ¬t.IsAbout subject q → (q ∈ replace.apply s data ↔ q ∈ data) := by
  cases h : t.save d with
  | error e => exact replace_of_save_error h
  | ok save =>
    obtain ⟨subject, statements, hst, rfl⟩ := save_eq_ok.mp h
    obtain ⟨identity, hidentity, hsubject, hstatements⟩ := hst.exists_identity
    refine ⟨_, _, identity, subject, replace_of_stored hst, delete_of_stored hst, hidentity,
      hsubject, ?_, ?_, ?_⟩
    · ext q
      rw [mem_apply_replacement, mem_apply_insertion, mem_apply_deletion]
    · intro q hq
      rw [mem_apply_replacement, mem_quadsOf hq, Document.mem_statements hstatements]
      exact or_iff_right fun h => h.2 hq
    · intro q hq
      rw [mem_apply_replacement]
      exact ⟨fun h => (h.resolve_right fun h => hq (isAbout_of_mem_quadsOf h)).1,
        fun h => .inl ⟨h, hq⟩⟩

end Target

/-! ## A person who is replaced -/

/-- A graph of people. -/
def staff : Iri :=
  ⟨"http://example.org/graphs/staff"⟩

/-- A person without an age, and with a null among her nicknames. -/
def Document.dora : Document :=
  [("_id", .str "dora"), ("_type", .str "Person"), ("age", .null), ("name", .str "Dora"),
    ("nicknames", .arr [.str "Do", .null, .str "D"])]

namespace Target

/-- The people of that graph. -/
def ofStaff : Target :=
  ⟨peopleSchema, some staff⟩

/-- The URI of that person. -/
def dora : Iri :=
  ⟨"http://example.org/instances/person/dora"⟩

/-- A predicate of people. -/
def ofPerson (name : String) : Iri :=
  ⟨"http://example.org/properties/Person/" ++ name⟩

/-- What has been said about her, before she lost her age and an old nickname. -/
def doraBefore : List (Iri × Term) :=
  [(Rdf.rdfType, .iri ⟨"http://example.org/classes/Person"⟩),
    (ofPerson "age", .literal (.ofInt 5)), (ofPerson "nicknames", .literal (.plain "Dory"))]

/-- What is said about her in the default graph, and about somebody else. -/
def elsewhere : Dataset :=
  {⟨⟨.iri dora, ofPerson "name", .literal (.plain "Theodora")⟩, none⟩,
    ⟨⟨.iri ⟨"http://example.org/instances/person/emil"⟩, ofPerson "mentor", .iri dora⟩,
      some staff⟩}

/-- The old statements in the graph of the document give way to those that it has now. -/
theorem replace_deletes_then_saves_dora :
    people.build = .ok ofStaff.schema ∧
      ∃ replace, ofStaff.replace Document.dora = .ok replace ∧
        replace.apply .numeric (ofStaff.quadsOf dora doraBefore ∪ elsewhere) =
          ofStaff.quadsOf dora
            [(Rdf.rdfType, .iri ⟨"http://example.org/classes/Person"⟩),
              (ofPerson "name", .literal (.plain "Dora")),
              (ofPerson "nicknames", .literal (.plain "Do")),
              (ofPerson "nicknames", .literal (.plain "D"))] ∪ elsewhere := by
  refine ⟨people_build, ?_⟩
  obtain ⟨save, hsave⟩ : ∃ save, ofStaff.save Document.dora = .ok save := ⟨_, rfl⟩
  have hreplaced := replace_deletes_then_saves ofStaff Document.dora .numeric
    (ofStaff.quadsOf dora doraBefore ∪ elsewhere)
  rw [hsave] at hreplaced
  obtain ⟨replace, -, identity, subject, hreplace, -, hidentity, hsubject, -, hthere, hothers⟩ :=
    hreplaced
  obtain rfl : ⟨"Person", "dora"⟩ = identity := Except.ok.inj hidentity
  obtain rfl : dora = subject := Except.ok.inj hsubject
  refine ⟨replace, hreplace, Finset.ext fun q => ?_⟩
  have helsewhere :
      ∀ q ∈ elsewhere, ¬(q.statement.subject = .iri dora ∧ q.graph = some staff) := by
    decide
  by_cases hq : ofStaff.IsAbout dora q
  · rw [hthere q hq, Finset.mem_union, or_iff_left fun h => helsewhere q h hq, mem_quadsOf hq]
    exact (Document.mem_statements rfl).symm
  · rw [hothers q hq, Finset.mem_union, Finset.mem_union,
      or_iff_right fun h => hq (isAbout_of_mem_quadsOf h),
      or_iff_right fun h => hq (isAbout_of_mem_quadsOf h)]

end Target

end DocGraph
