import DocGraph.Text.Split

/-!
# Segments

What segments are joined to: a text that begins with the first of them (`toList_join_cons`), is
empty only if there are none (`join_ne_empty`), has no other characters than they have
(`mem_join`), and tells them (`join_inj`). What characters are left out of a text is left out of
its segments (`split_filter`).
-/

namespace DocGraph.Text

theorem join_singleton (sep : Char) (segment : String) : join sep [segment] = segment := by
  simp [join]

theorem join_cons (sep : Char) (segment : String) {segments : List String}
    (h : segments ≠ []) :
    join sep (segment :: segments) = segment ++ String.singleton sep ++ join sep segments := by
  obtain ⟨next, rest, rfl⟩ := List.exists_cons_of_ne_nil h
  rw [String.ext_iff]
  simp [join, String.toList_append, String.toList_singleton]

/-- A joined text begins with its first segment. -/
theorem toList_join_cons (sep : Char) (segment : String) (segments : List String) :
    ∃ cs, (join sep (segment :: segments)).toList = segment.toList ++ cs := by
  cases segments with
  | nil => exact ⟨[], by rw [join_singleton, List.append_nil]⟩
  | cons next rest =>
    rw [join_cons _ _ (List.cons_ne_nil _ _), String.append_assoc, String.toList_append]
    exact ⟨_, rfl⟩

theorem join_ne_empty {sep : Char} {segments : List String} (h : segments ≠ [])
    (hs : ∀ segment ∈ segments, segment ≠ "") : join sep segments ≠ "" := by
  obtain ⟨segment, rest, rfl⟩ := List.exists_cons_of_ne_nil h
  obtain ⟨cs, hcs⟩ := toList_join_cons sep segment rest
  intro he
  rw [he, String.toList_empty, eq_comm, List.append_eq_nil_iff] at hcs
  exact hs segment List.mem_cons_self (String.toList_eq_nil_iff.mp hcs.1)

theorem mem_join {sep c : Char} {segments : List String} (h : c ∈ (join sep segments).toList) :
    c = sep ∨ ∃ segment ∈ segments, c ∈ segment.toList := by
  induction segments with
  | nil => simp [join] at h
  | cons segment rest ih =>
    cases rest with
    | nil =>
      rw [join_singleton] at h
      exact .inr ⟨segment, List.mem_cons_self, h⟩
    | cons next rest =>
      rw [join_cons _ _ (List.cons_ne_nil _ _), String.toList_append, String.toList_append,
        String.toList_singleton, List.append_assoc, List.mem_append] at h
      rcases h with h | h
      · exact .inr ⟨segment, List.mem_cons_self, h⟩
      · rcases List.mem_cons.mp h with h | h
        · exact .inl h
        · rcases ih h with h | ⟨other, hother, h⟩
          · exact .inl h
          · exact .inr ⟨other, List.mem_cons_of_mem _ hother, h⟩

theorem split_ne_nil (sep : Char) (s : String) : split sep s ≠ [] := by
  unfold split
  rw [Ne, List.map_eq_nil_iff]
  exact List.splitOn_ne_nil _ _

/-- Joined segments are told by their text. -/
theorem join_inj {sep : Char} {as bs : List String} (hane : as ≠ []) (hbne : bs ≠ [])
    (ha : ∀ a ∈ as, sep ∉ a.toList) (hb : ∀ b ∈ bs, sep ∉ b.toList)
    (h : join sep as = join sep bs) : as = bs := by
  rw [← split_join sep as hane ha, h, split_join sep bs hbne hb]

theorem splitOn_filter {sep : Char} {keep : Char → Bool} (hsep : keep sep = true)
    (cs : List Char) : (cs.filter keep).splitOn sep = (cs.splitOn sep).map (List.filter keep) := by
  induction cs with
  | nil => rfl
  | cons c cs ih =>
    obtain ⟨first, rest, hsplit⟩ := List.exists_cons_of_ne_nil (List.splitOn_ne_nil sep cs)
    rw [hsplit] at ih
    simp only [List.splitOn_eq_splitOnP, List.filter_cons,
      List.splitOnP_cons_eq_if_modifyHead] at ih hsplit ⊢
    by_cases hc : c = sep
    · subst hc
      simp [List.splitOnP_cons_eq_if_modifyHead, hsep, hsplit, ih]
    · by_cases hkeep : keep c = true <;>
        simp [List.splitOnP_cons_eq_if_modifyHead, hc, hkeep, hsplit, ih]

/-- What is left out of a text is left out of its segments, if the separator is not. -/
theorem split_filter {sep : Char} {keep : Char → Bool} (hsep : keep sep = true) (s : String) :
    split sep (String.ofList (s.toList.filter keep)) =
      (split sep s).map fun segment => String.ofList (segment.toList.filter keep) := by
  rw [split, split, String.toList_ofList, splitOn_filter hsep, List.map_map, List.map_map]
  refine List.map_congr_left fun cs _ => ?_
  rw [Function.comp_apply, Function.comp_apply, String.toList_ofList]

end DocGraph.Text
