import DocGraph.Proofs.Schema.Built
import DocGraph.Proofs.Text.Percent

/-!
# The identifier in an instance URI

The URI of an instance gives its identifier back (`idOfInstance?_of_instanceUri`), also
with slashes and hashes around what is encoded (`idOfInstance?_around`): what follows
the text that the URIs of the model begin with is percent-encoded, so it holds none of
the characters that are trimmed from it. Different identifiers have different URIs
(`instanceUri_eq_iff`).
-/

namespace DocGraph

open Rdf (Iri)
open Text (Percent.encode Percent.decode? afterStart? trimChars)

namespace Text

theorem afterStart?_append (start s : String) : afterStart? start (start ++ s) = some s := by
  unfold afterStart?
  have hprefix : start.toList.isPrefixOf (start ++ s).toList = true := by
    rw [String.toList_append, List.isPrefixOf_iff_prefix]
    exact List.prefix_append _ _
  rw [if_pos hprefix, String.toList_append, List.drop_left, String.ofList_toList]

/-- What is trimmed stands around a text that begins and ends with other characters. -/
theorem trimChars_around {cs : List Char} {left s right : String}
    (hleft : ∀ c ∈ left.toList, c ∈ cs) (hs : ∀ c ∈ s.toList, c ∉ cs) (hne : s ≠ "")
    (hright : ∀ c ∈ right.toList, c ∈ cs) : trimChars cs (left ++ s ++ right) = s := by
  have hdrop (l rest : List Char) (hl : ∀ c ∈ l, c ∈ cs) :
      (l ++ rest).dropWhile (· ∈ cs) = rest.dropWhile (· ∈ cs) :=
    List.dropWhile_append_of_pos fun c hc => decide_eq_true (hl c hc)
  have hkeep (l rest : List Char) (hne : l ≠ []) (hl : ∀ c ∈ l, c ∉ cs) :
      (l ++ rest).dropWhile (· ∈ cs) = l ++ rest := by
    cases l with
    | nil => exact absurd rfl hne
    | cons c l =>
      rw [List.cons_append, List.dropWhile_cons_of_neg (by simpa using hl c List.mem_cons_self)]
  have hnil : s.toList ≠ [] := mt String.toList_eq_nil_iff.mp hne
  have hkept := hkeep s.toList.reverse [] (mt List.reverse_eq_nil_iff.mp hnil) fun c hc =>
    hs c (List.mem_reverse.mp hc)
  unfold trimChars
  rw [String.toList_append, String.toList_append, List.append_assoc, hdrop _ _ hleft,
    hkeep _ _ hnil hs, List.reverse_append, hdrop _ _ fun c hc => hright c (List.mem_reverse.mp hc)]
  rw [List.append_nil] at hkept
  rw [hkept, List.reverse_reverse, String.ofList_toList]

end Text

namespace Schema

variable {s : Schema} {model id : String} {i : Iri} {m : Model}

theorem text_of_absoluteIri {text : String} (h : absoluteIri text = .ok i) : i.text = text := by
  unfold absoluteIri Iri.ofText? at h
  split at h
  · next heq =>
    obtain rfl := Except.ok.inj h
    split at heq
    · rw [← Option.some.inj heq]
    · cases heq
  · cases h

/-- The URI of an instance is what those of its model begin with, and the encoded
identifier. -/
theorem instanceUri_eq_ok :
    s.instanceUri model id = .ok i ↔ ∃ m, s.model? model = some m ∧
      absoluteIri (m.instancePrefix ++ Percent.encode id) = .ok i := by
  simp only [instanceUri, Outcome.bind_eq_ok, model_eq_ok]

/-- The identifier is found behind what the URIs of a model begin with, also between slashes
and hashes. -/
theorem idOfInstance?_around {left right : String} (hleft : ∀ c ∈ left.toList, c ∈ ['/', '#'])
    (hright : ∀ c ∈ right.toList, c ∈ ['/', '#']) (hid : id ≠ "") :
    idOfInstance? m (m.instancePrefix ++ (left ++ Percent.encode id ++ right)) = some id := by
  have henc : Percent.encode id ≠ "" := mt Text.Percent.encode_eq_empty.mp hid
  have hplain : ∀ c ∈ (Percent.encode id).toList, c ∉ ['/', '#'] := fun c hc hmem => by
    have hencoded := Text.Percent.isEncoded_of_mem_encode hc
    rcases List.mem_pair.mp hmem with rfl | rfl <;> exact absurd hencoded (by decide)
  unfold idOfInstance?
  rw [Text.afterStart?_append, Option.bind_eq_bind, Option.bind_some]
  dsimp only
  rw [Text.trimChars_around hleft hplain henc hright, if_neg henc, Text.Percent.decode?_encode]

/-- The URI of an instance gives its identifier back. -/
theorem idOfInstance?_of_instanceUri (hm : s.model? model = some m)
    (h : s.instanceUri model id = .ok i) (hid : id ≠ "") : idOfInstance? m i.text = some id := by
  obtain ⟨m', hm', hi⟩ := instanceUri_eq_ok.mp h
  obtain rfl : m = m' := Option.some.inj (hm.symm.trans hm')
  have hfound : idOfInstance? m (m.instancePrefix ++ ("" ++ Percent.encode id ++ "")) = some id :=
    idOfInstance?_around nofun nofun hid
  rwa [String.append_empty, String.empty_append, ← text_of_absoluteIri hi] at hfound

/-- The URIs of the instances of one model are those of one identifier only. -/
theorem instanceUri_eq_iff {id' : String} {i' : Iri} (h : s.instanceUri model id = .ok i)
    (h' : s.instanceUri model id' = .ok i') : i' = i ↔ id' = id := by
  obtain ⟨m, hm, hi⟩ := instanceUri_eq_ok.mp h
  obtain ⟨m', hm', hi'⟩ := instanceUri_eq_ok.mp h'
  obtain rfl : m = m' := Option.some.inj (hm.symm.trans hm')
  constructor
  · rintro rfl
    have htexts := (text_of_absoluteIri hi').symm.trans (text_of_absoluteIri hi)
    exact Text.Percent.encode_injective ((String.append_right_inj _).mp htexts)
  · rintro rfl
    exact Except.ok.inj (hi'.symm.trans hi)

theorem idOfInstance_eq_ok {uri : String} (hm : s.model? model = some m)
    (h : idOfInstance? m uri = some id) : s.idOfInstance model uri = .ok id := by
  rw [idOfInstance, model_eq_ok.mpr hm, Outcome.ok_bind, h]

/-- The URI of an instance gives its identifier back, whatever that is and whatever the URIs of
the model begin with, so different identifiers have different URIs. Slashes and hashes around
the encoded identifier do not count. -/
theorem idOfInstance_instanceUri (h : s.instanceUri model id = .ok i) (hid : id ≠ "") :
    s.idOfInstance model i.text = .ok id ∧
      (∀ id' i', s.instanceUri model id' = .ok i' → (i' = i ↔ id' = id)) ∧
      ∀ m left right, s.model? model = some m → (∀ c ∈ left.toList, c ∈ ['/', '#']) →
        (∀ c ∈ right.toList, c ∈ ['/', '#']) →
        s.idOfInstance model (m.instancePrefix ++ (left ++ Percent.encode id ++ right)) =
          .ok id := by
  obtain ⟨m, hm, -⟩ := instanceUri_eq_ok.mp h
  refine ⟨idOfInstance_eq_ok hm (idOfInstance?_of_instanceUri hm h hid), fun _ _ h' =>
    instanceUri_eq_iff h h', fun m' left right hm' hleft hright => ?_⟩
  exact idOfInstance_eq_ok hm' (idOfInstance?_around hleft hright hid)

end Schema

/-- An identifier with separators, an escape and a character beyond ASCII. -/
theorem idOfInstance_instanceUri_escaped :
    peopleSchema.instanceUri "Person" "a/b#%2F é" =
        .ok ⟨"http://example.org/instances/person/a%2Fb%23%252F%20%C3%A9"⟩ ∧
      peopleSchema.idOfInstance "Person"
          "http://example.org/instances/person/a%2Fb%23%252F%20%C3%A9" = .ok "a/b#%2F é" ∧
      peopleSchema.idOfInstance "Person"
          "http://example.org/instances/person//#a%2Fb%23%252F%20%C3%A9/" = .ok "a/b#%2F é" := by
  have huri : peopleSchema.instanceUri "Person" "a/b#%2F é" =
      .ok ⟨"http://example.org/instances/person/a%2Fb%23%252F%20%C3%A9"⟩ := by rfl
  obtain ⟨hback, -, haround⟩ := Schema.idOfInstance_instanceUri huri (by decide)
  refine ⟨huri, hback, ?_⟩
  exact haround person "/#" "/" rfl (by simp) (by simp)

end DocGraph
