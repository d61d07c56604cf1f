import DocGraph.Proofs.Select.Group
import DocGraph.Proofs.Sparql.Matching
import DocGraph.Proofs.Sparql.Numbers

/-!
# What a pattern is made of

`groupPattern` merges neighbouring triples, leaves empty patterns out of joins and puts the
filters of a group around everything else. None of this changes what a group means
(`eval_groupPattern`), and none of it loses a part, repeats one or moves it past another one:
read from left to right, the pattern has the triples, paths, assignments and tests of its
elements in their order, the filters of every group following the rest of it
(`parts_groupPattern`).
-/

namespace DocGraph

open Rdf (Iri Statement Variable)
open Sparql (Context Expr Node Pattern Solution Solutions Triple)
open Sparql.Solutions (extensions extensions_add join leftJoin ofOption passing singleton_join)

/-- A part of a pattern that is no pattern itself. -/
inductive Part where
  | triple (t : Triple)
  /-- The triples with `predicate` from `object` to `subject`. -/
  | inverse (subject : Node) (predicate : Iri) (object : Node)
  | bind (v : Variable) (e : Expr)
  /-- A test that is no conjunction of others. -/
  | test (e : Expr)

namespace Sparql

/-- The tests that an expression is the conjunction of. -/
def Expr.conjuncts : Expr → List Expr
  | .and a b => a.conjuncts ++ b.conjuncts
  | e => [e]

/-- The tests that a filter makes. -/
def Expr.tests (e : Expr) : List Part :=
  e.conjuncts.map .test

/-- The parts of a pattern from left to right, those of a filter after those of its pattern. -/
def Pattern.parts : Pattern → List Part
  | .bgp ts => ts.map .triple
  | .inverse s p o => [.inverse s p o]
  | .join l r => l.parts ++ r.parts
  | .leftJoin l r => l.parts ++ r.parts
  | .filter e p => p.parts ++ e.tests
  | .union l r => l.parts ++ r.parts
  | .graph _ p => p.parts
  | .extend p v e => p.parts ++ [.bind v e]
  | .group p _ _ => p.parts
  | .orderBy p _ => p.parts
  | .project p _ => p.parts
  | .distinct p => p.parts
  | .slice p _ _ => p.parts

end Sparql

/-! ## The parts of elements -/

mutual

/-- What an element adds to the parts of its group, where it stands. A union without branches
is a test that fails. -/
def Element.parts : Element → List Part
  | .triple t => [.triple t]
  | .inverse s p o => [.inverse s p o]
  | .filter _ => []
  | .optional es => elementParts es ++ (filtersOf es).flatMap Expr.tests
  | .union [] => [.test (.literal (.ofBool false))]
  | .union (es :: branches) =>
    elementParts es ++ (filtersOf es).flatMap Expr.tests ++ branchParts branches
  | .bind v e => [.bind v e]

/-- What the elements of a group add, without its own filters. -/
def elementParts : List Element → List Part
  | [] => []
  | e :: rest => e.parts ++ elementParts rest

/-- The parts of several groups. -/
def branchParts : List (List Element) → List Part
  | [] => []
  | es :: rest => elementParts es ++ (filtersOf es).flatMap Expr.tests ++ branchParts rest

end

/-- The parts of a group: those of its elements, and then its own filters in their order. -/
def groupParts (es : List Element) : List Part :=
  elementParts es ++ (filtersOf es).flatMap Expr.tests

/-! ## The parts of the pattern of a group -/

namespace Sparql

theorem Expr.conjuncts_foldl_and (es : List Expr) (e : Expr) :
    (es.foldl .and e).conjuncts = e.conjuncts ++ es.flatMap Expr.conjuncts := by
  induction es generalizing e with
  | nil => exact (List.append_nil _).symm
  | cons e' es ih => rw [List.foldl_cons, ih, conjuncts, List.flatMap_cons, List.append_assoc]

theorem Expr.tests_foldl_and (es : List Expr) (e : Expr) :
    (es.foldl .and e).tests = (e :: es).flatMap Expr.tests := by
  rw [tests, conjuncts_foldl_and, List.map_append, List.map_flatMap, List.flatMap_cons]
  rfl

namespace Pattern

theorem parts_of_isEmpty {p : Pattern} (h : p.isEmpty = true) : p.parts = [] := by
  unfold isEmpty at h
  split at h
  · rfl
  · cases h

/-- Leaving out the empty pattern and merging lists of triples keeps the parts. -/
theorem parts_joined (p q : Pattern) : (p.joined q).parts = p.parts ++ q.parts := by
  unfold joined
  split
  · next hq => rw [parts_of_isEmpty hq, List.append_nil]
  split
  · next hp => rw [parts_of_isEmpty hp, List.nil_append]
  split
  · exact List.map_append
  · rfl

theorem parts_foldl_union (ps : List Pattern) (p : Pattern) :
    (ps.foldl .union p).parts = p.parts ++ ps.flatMap parts := by
  induction ps generalizing p with
  | nil => exact (List.append_nil _).symm
  | cons q ps ih => rw [List.foldl_cons, ih, parts, List.flatMap_cons, List.append_assoc]

end Pattern

end Sparql

namespace GroupState

/-- The parts of a group that is being read, before its filters. -/
def parts (g : GroupState) : List Part :=
  g.pattern.parts ++ g.triples.map .triple

theorem parts_flush (g : GroupState) : g.flush.pattern.parts = g.parts :=
  Pattern.parts_joined _ _

/-- A state without triples has the parts of its pattern. -/
theorem parts_of_triples {g : GroupState} (h : g.triples = []) : g.parts = g.pattern.parts := by
  rw [parts, h]
  exact List.append_nil _

theorem parts_finish (g : GroupState) :
    g.finish.parts = g.parts ++ g.filters.flatMap Expr.tests := by
  unfold finish
  cases h : g.filters with
  | nil => exact (parts_flush g).trans (List.append_nil _).symm
  | cons e es =>
    rw [Expr.conjunction?]
    dsimp only
    rw [Pattern.parts, parts_flush, Expr.tests_foldl_and]

end GroupState

mutual

/-- One more element adds its parts to those of a state. -/
theorem parts_addTo (g : GroupState) : ∀ e : Element, (e.addTo g).parts = g.parts ++ e.parts
  | .triple t => by
    rw [Element.addTo, GroupState.parts, List.map_append, ← List.append_assoc]
    rfl
  | .inverse s p o => by
    rw [Element.addTo, GroupState.parts_of_triples rfl, Pattern.parts_joined,
      GroupState.parts_flush]
    rfl
  | .filter e => by
    rw [Element.addTo, GroupState.parts_of_triples rfl, GroupState.parts_flush, Element.parts,
      List.append_nil]
  | .optional es => by
    rw [Element.addTo, GroupState.parts_of_triples rfl, Pattern.parts, GroupState.parts_flush,
      parts_addAll_finish es, Element.parts]
  | .union [] => by
    rw [Element.addTo, GroupState.parts_of_triples rfl, Pattern.parts_joined,
      GroupState.parts_flush]
    rfl
  | .union (es :: branches) => by
    rw [Element.addTo, GroupState.parts_of_triples rfl, Pattern.parts_joined,
      GroupState.parts_flush, branchPatterns, unionOf, Pattern.parts_foldl_union,
      parts_addAll_finish es, parts_branchPatterns branches, Element.parts]
  | .bind v e => by
    rw [Element.addTo, GroupState.parts_of_triples rfl, Pattern.parts, GroupState.parts_flush,
      Element.parts]

theorem parts_addAll : ∀ (es : List Element) (g : GroupState),
    (addAll g es).parts = g.parts ++ elementParts es
  | [], g => (List.append_nil _).symm
  | e :: es, g => by
    rw [addAll, parts_addAll es, parts_addTo g e, elementParts, List.append_assoc]

theorem parts_addAll_finish (es : List Element) :
    (addAll {} es).finish.parts = elementParts es ++ (filtersOf es).flatMap Expr.tests := by
  rw [GroupState.parts_finish, parts_addAll es, addAll_filters]
  rfl

theorem parts_branchPatterns : ∀ branches : List (List Element),
    (branchPatterns branches).flatMap Pattern.parts = branchParts branches
  | [] => rfl
  | es :: rest => by
    rw [branchPatterns, List.flatMap_cons, parts_addAll_finish es, parts_branchPatterns rest,
      branchParts]

end

/-- The pattern of a group has the parts of the group in their order. -/
theorem parts_groupPattern (es : List Element) : (groupPattern es).parts = groupParts es :=
  parts_addAll_finish es

/-- The pattern of a group has the solutions of the group, taken element by element, and its
parts: each of them once, and in the order of the elements. -/
theorem groupPattern_eval_and_parts (c : Context) (es : List Element) :
    (groupPattern es).eval c = groupSolutions c es ∧ (groupPattern es).parts = groupParts es :=
  ⟨eval_groupPattern c es, parts_groupPattern es⟩

/-! ## People without a name -/

/-- That there is a person. -/
def personAlice : Statement :=
  ⟨.iri ⟨"http://example.org/instances/person/alice"⟩, Rdf.rdfType,
    .iri ⟨"http://example.org/classes/Person"⟩⟩

/-- A store that knows of one person, and nothing more. -/
noncomputable def aliceOnly : Context where
  store := .numeric
  data := {⟨personAlice, none⟩}

/-- The person as a solution. -/
def alicePerson : Solution :=
  Solution.empty.set ⟨"person"⟩ personAlice.subject

namespace Nameless

def isPerson : Triple :=
  ⟨.var ⟨"person"⟩, .iri Rdf.rdfType, .term personAlice.object⟩

def hasName : Triple :=
  ⟨.var ⟨"person"⟩, .iri ⟨"http://example.org/properties/Person/name"⟩, .var ⟨"name"⟩⟩

def hasType : Triple :=
  ⟨.var ⟨"person"⟩, .iri Rdf.rdfType, .var ⟨"type"⟩⟩

/-- What asks for the people without a name, with their types and once more without them. -/
def elements : List Element :=
  [.filter (.not (.bound ⟨"name"⟩)), .triple isPerson, .optional [.triple hasName],
    .union [[.triple hasType], []]]

end Nameless

open Nameless

theorem extensions_aliceOnly (μ : Solution) (t : Triple) :
    extensions μ (t.solutions aliceOnly) = ofOption (t.match? aliceOnly μ personAlice) := by
  have hstatements : aliceOnly.statements = {personAlice} := by decide
  rw [Sparql.extensions_solutions, hstatements, Sparql.filterMap_eq_bind]
  exact Multiset.singleton_bind _ _

theorem groupSolutions_nameless : groupSolutions aliceOnly elements =
    {alicePerson.set ⟨"type"⟩ personAlice.object, alicePerson} := by
  have hperson : isPerson.solutions aliceOnly = {alicePerson} := by
    rw [← Sparql.Solutions.empty_extensions (isPerson.solutions _), extensions_aliceOnly]
    rfl
  have hname : leftJoin {alicePerson} (hasName.solutions aliceOnly) = {alicePerson} := by
    have hnone : extensions alicePerson (hasName.solutions aliceOnly) = 0 :=
      extensions_aliceOnly _ _
    rw [leftJoin, Multiset.singleton_bind, if_pos hnone]
  have htype : extensions alicePerson (hasType.solutions aliceOnly) =
      {alicePerson.set ⟨"type"⟩ personAlice.object} :=
    extensions_aliceOnly _ _
  have hfilters (t : Triple) : filtersOf [.triple t] = [] := rfl
  have hpassing : ∀ μ ∈ ({alicePerson.set ⟨"type"⟩ personAlice.object, alicePerson} : Solutions),
      ∀ e ∈ filtersOf elements, e.Holds aliceOnly μ := by
    intro μ hμ e he
    obtain rfl := List.mem_singleton.mp he
    rcases Multiset.mem_cons.mp hμ with rfl | hμ
    · rfl
    · rw [Multiset.mem_singleton.mp hμ]
      rfl
  calc groupSolutions aliceOnly elements
      = passing (join (leftJoin {alicePerson} (hasName.solutions aliceOnly))
          (hasType.solutions aliceOnly + {.empty})) aliceOnly (filtersOf elements) := by
        simp only [groupSolutions, elements, extendAll, Element.extend, branchSolutions,
          Sparql.Solutions.unit_join, hperson, hfilters, passing_nil, add_zero]
        rfl
    _ = passing {alicePerson.set ⟨"type"⟩ personAlice.object, alicePerson} aliceOnly
          (filtersOf elements) := by
        rw [hname, singleton_join, extensions_add, htype, Sparql.Solutions.extensions_unit]
        rfl
    _ = {alicePerson.set ⟨"type"⟩ personAlice.object, alicePerson} := by
        classical
        exact Multiset.filter_eq_self.mpr hpassing

/-- The person is found with the type and without it, as nothing is known of a name. The filter
comes first of the elements, and last of the pattern. -/
theorem groupPattern_eval_and_parts_nameless :
    (groupPattern elements).eval aliceOnly =
        {alicePerson.set ⟨"type"⟩ personAlice.object, alicePerson} ∧
      (groupPattern elements).parts =
        [.triple isPerson, .triple hasName, .triple hasType, .test (.not (.bound ⟨"name"⟩))] := by
  obtain ⟨heval, hparts⟩ := groupPattern_eval_and_parts aliceOnly elements
  exact ⟨heval.trans groupSolutions_nameless, hparts⟩

end DocGraph
