import DocGraph.Proofs.Sparql.Matching
import Mathlib.Data.Multiset.Dedup

/-!
# What updates do

The quads after an update. A modification is matched in all quads at once and
then applied at once: what its templates delete is taken away first, and what
they insert is added after that. A template makes no quad of a solution that
leaves one of its variables unbound. Blank nodes stand for themselves, so the
templates are those without any.
-/

namespace DocGraph.Sparql

open Rdf (Dataset GroundQuad Iri Term)

/-- Whether a term may be the subject of a statement. -/
def isResource : Term → Bool
  | .literal _ => false
  | _ => true

/-- The term that a place of a template stands for. -/
def Node.instance? (μ : Solution) : Node → Option Term
  | .term t => some t
  | .var v => μ v

/-- The IRI that the predicate of a template stands for. -/
def Predicate.instance? (μ : Solution) : Predicate → Option Iri
  | .iri i => some i
  | .var v =>
    match μ v with
    | some (.iri i) => some i
    | _ => none

/-- The quad that a template makes of a solution, if its terms are bound and may
stand in their places. -/
def Quad.instance? (μ : Solution) (q : Quad) : Option GroundQuad := do
  let subject ← (q.triple.subject.instance? μ).filter isResource
  let predicate ← q.triple.predicate.instance? μ
  let object ← q.triple.object.instance? μ
  return ⟨⟨subject, predicate, object⟩, q.graph⟩

/-- The quads that templates make of some solutions. -/
def instances (ss : Solutions) (templates : List Quad) : Dataset :=
  (ss.bind fun μ => ↑(templates.filterMap (·.instance? μ))).toFinset

/-- The quads after an update. -/
noncomputable def Update.apply (s : Store) (data : Dataset) : Update → Dataset
  | .insertData quads => data ∪ instances {.empty} quads
  | .modify deleted inserted p =>
    let ss := p.eval { store := s, data := data }
    (data \ instances ss deleted) ∪ instances ss inserted

theorem mem_instances {ss : Solutions} {templates : List Quad} {q : GroundQuad} :
    q ∈ instances ss templates ↔ ∃ μ ∈ ss, ∃ t ∈ templates, t.instance? μ = some q := by
  simp only [instances, Multiset.mem_toFinset, Multiset.mem_bind, Multiset.mem_coe,
    List.mem_filterMap]

theorem mem_apply_insertData {s : Store} {data : Dataset} {quads : List Quad} {q : GroundQuad} :
    q ∈ (Update.insertData quads).apply s data ↔
      q ∈ data ∨ q ∈ instances {.empty} quads := by
  rw [Update.apply, Finset.mem_union]

theorem mem_apply_modify {s : Store} {data : Dataset} {deleted inserted : List Quad} {p : Pattern}
    {q : GroundQuad} :
    q ∈ (Update.modify deleted inserted p).apply s data ↔
      (q ∈ data ∧ q ∉ instances (p.eval { store := s, data := data }) deleted) ∨
        q ∈ instances (p.eval { store := s, data := data }) inserted := by
  simp only [Update.apply, Finset.mem_union, Finset.mem_sdiff]

end DocGraph.Sparql
