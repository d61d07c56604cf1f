import DocGraph.Error
import Mathlib.Data.List.Forall2
import Mathlib.Data.List.Perm.Basic

/-!
# Outcomes of several steps

What it takes for a sequence of steps to succeed: `bind_eq_ok` splits off the
first step, and `mapM_eq_ok` says that a step has succeeded for every element of
a list. A sequence fails with the error of one of its steps (`bind_eq_error`,
`exists_of_mapM_eq_error`). Whether a sequence succeeds at all is told by
`succeeds_bind`, `succeeds_mapM` and `succeeds_foldlM`, and both what it gives and why it
fails by `Reads.bind` and `reads_mapM`.
-/

namespace DocGraph

/-! ## Lists that are related element by element -/

theorem exists_forall₂ {α β : Type} {R : α → β → Prop} {as : List α} (h : ∀ a ∈ as, ∃ b, R a b) :
    ∃ bs, List.Forall₂ R as bs := by
  induction as with
  | nil => exact ⟨[], .nil⟩
  | cons a as ih =>
    obtain ⟨b, hb⟩ := h a List.mem_cons_self
    obtain ⟨bs, hbs⟩ := ih fun a' ha' => h a' (List.mem_cons_of_mem a ha')
    exact ⟨b :: bs, .cons hb hbs⟩

theorem exists_map_eq {α β : Type} {P : α → Prop} {f : α → β} {bs : List β}
    (h : ∀ b ∈ bs, ∃ a, P a ∧ f a = b) : ∃ as : List α, (∀ a ∈ as, P a) ∧ as.map f = bs := by
  induction bs with
  | nil => exact ⟨[], nofun, rfl⟩
  | cons b bs ih =>
    obtain ⟨a, ha, hb⟩ := h b List.mem_cons_self
    obtain ⟨as, has, hbs⟩ := ih fun b' hb' => h b' (List.mem_cons_of_mem b hb')
    exact ⟨a :: as, List.forall_mem_cons.mpr ⟨ha, has⟩, by rw [List.map_cons, hb, hbs]⟩

theorem exists_right_of_mem {α β : Type} {R : α → β → Prop} {as : List α} {bs : List β} {a : α}
    (h : List.Forall₂ R as bs) (ha : a ∈ as) : ∃ b ∈ bs, R a b := by
  induction h with
  | nil => cases ha
  | cons hab _ ih =>
    rcases List.mem_cons.mp ha with rfl | ha
    · exact ⟨_, List.mem_cons_self, hab⟩
    · obtain ⟨b, hb, hR⟩ := ih ha
      exact ⟨b, List.mem_cons_of_mem _ hb, hR⟩

theorem exists_left_of_mem {α β : Type} {R : α → β → Prop} {as : List α} {bs : List β} {b : β}
    (h : List.Forall₂ R as bs) (hb : b ∈ bs) : ∃ a ∈ as, R a b :=
  exists_right_of_mem h.flip hb

/-- Lists are related by what the relation says of the elements of the first one. -/
theorem forall₂_congr_of_mem {α β : Type} {R R' : α → β → Prop} {as : List α} {bs : List β}
    (h : ∀ a ∈ as, ∀ b, R a b ↔ R' a b) : List.Forall₂ R as bs ↔ List.Forall₂ R' as bs := by
  induction as generalizing bs with
  | nil => rw [List.forall₂_nil_left_iff, List.forall₂_nil_left_iff]
  | cons a as ih =>
    rw [List.forall_mem_cons] at h
    cases bs with
    | nil => rw [List.forall₂_nil_right_iff, List.forall₂_nil_right_iff]
    | cons b bs => rw [List.forall₂_cons, List.forall₂_cons, h.1 b, ih h.2]

/-! ## Steps in sequence -/

namespace Outcome

variable {α β γ : Type}

@[simp] theorem ok_bind (a : α) (f : α → Outcome β) : ((.ok a : Outcome α) >>= f) = f a := rfl

@[simp] theorem error_bind (e : Error) (f : α → Outcome β) :
    ((.error e : Outcome α) >>= f) = .error e := rfl

@[simp] theorem pure_eq (a : α) : (pure a : Outcome α) = .ok a := rfl

theorem bind_eq_ok {x : Outcome α} {f : α → Outcome β} {b : β} :
    (x >>= f) = .ok b ↔ ∃ a, x = .ok a ∧ f a = .ok b := by
  cases x <;> simp

theorem bind_eq_error {x : Outcome α} {f : α → Outcome β} {e : Error} :
    (x >>= f) = .error e ↔ x = .error e ∨ ∃ a, x = .ok a ∧ f a = .error e := by
  cases x <;> simp

/-- A last step that cannot fail is not to blame. -/
theorem bind_pure_eq_error {x : Outcome α} {f : α → β} {e : Error} :
    (x >>= fun a => pure (f a)) = .error e ↔ x = .error e := by
  cases x <;> simp

theorem map_eq_ok {x : Outcome α} {f : α → β} {b : β} :
    Except.map f x = .ok b ↔ ∃ a, x = .ok a ∧ f a = b := by
  cases x <;> simp [Except.map]

theorem map_eq_error {x : Outcome α} {f : α → β} {e : Error} :
    Except.map f x = .error e ↔ x = .error e := by
  cases x <;> simp [Except.map]

theorem mapM_eq_ok {f : α → Outcome β} {as : List α} {bs : List β} :
    as.mapM f = .ok bs ↔ List.Forall₂ (fun a b => f a = .ok b) as bs := by
  induction as generalizing bs with
  | nil => cases bs <;> simp
  | cons a as ih =>
    rw [List.mapM_cons, bind_eq_ok]
    constructor
    · rintro ⟨b, hb, h⟩
      obtain ⟨bs', hbs, h⟩ := bind_eq_ok.mp h
      obtain rfl : b :: bs' = bs := Except.ok.inj h
      exact .cons hb (ih.mp hbs)
    · intro h
      cases h with
      | cons hb hbs => exact ⟨_, hb, bind_eq_ok.mpr ⟨_, ih.mpr hbs, rfl⟩⟩

/-- What a step leaves as it is. -/
theorem map_eq_of_mapM {f : α → Outcome β} {g : α → γ} {g' : β → γ} {as : List α} {bs : List β}
    (h : as.mapM f = .ok bs) (hf : ∀ a b, f a = .ok b → g' b = g a) : bs.map g' = as.map g := by
  rw [mapM_eq_ok] at h
  induction h with
  | nil => rfl
  | cons hb _ ih => rw [List.map_cons, List.map_cons, hf _ _ hb, ih]

/-- A step over a list fails with the error of one of its elements. -/
theorem exists_of_mapM_eq_error {f : α → Outcome β} {as : List α} {e : Error}
    (h : as.mapM f = .error e) : ∃ a ∈ as, f a = .error e := by
  induction as with
  | nil => cases h
  | cons a as ih =>
    rw [List.mapM_cons, bind_eq_error] at h
    rcases h with h | ⟨b, -, h⟩
    · exact ⟨a, List.mem_cons_self, h⟩
    · obtain ⟨a', ha', h⟩ := ih (bind_pure_eq_error.mp h)
      exact ⟨a', List.mem_cons_of_mem a ha', h⟩

/-- Steps over the same elements in another order all fail with the one error there is, or give
the same results in another order. -/
theorem mapM_perm {f : α → Outcome β} {as as' : List α} (h : as.Perm as')
    (herror : ∀ a a' e e', f a = .error e → f a' = .error e' → e = e') :
    (∃ e, as.mapM f = .error e ∧ as'.mapM f = .error e) ∨
      ∃ bs bs', as.mapM f = .ok bs ∧ as'.mapM f = .ok bs' ∧ bs.Perm bs' := by
  cases hbs' : as'.mapM f with
  | ok bs' =>
    obtain ⟨bs, hbs, hperm⟩ := List.perm_comp_forall₂ h (mapM_eq_ok.mp hbs')
    exact .inr ⟨bs, bs', mapM_eq_ok.mpr hbs, rfl, hperm⟩
  | error e' =>
    obtain ⟨a', ha', he'⟩ := exists_of_mapM_eq_error hbs'
    cases hbs : as.mapM f with
    | ok bs =>
      obtain ⟨b, -, hb⟩ := exists_right_of_mem (mapM_eq_ok.mp hbs) (h.mem_iff.mpr ha')
      rw [he'] at hb
      cases hb
    | error e =>
      obtain ⟨a, -, he⟩ := exists_of_mapM_eq_error hbs
      rw [herror a a' e e' he he']
      exact .inl ⟨e', rfl, rfl⟩

/-- Steps that never fail make a plain fold. -/
theorem foldlM_eq_ok {f : β → α → Outcome β} {g : β → α → β} {as : List α}
    (h : ∀ a ∈ as, ∀ b, f b a = .ok (g b a)) (b : β) : as.foldlM f b = .ok (as.foldl g b) := by
  induction as generalizing b with
  | nil => rfl
  | cons a as ih =>
    rw [List.foldlM_cons, h a List.mem_cons_self, ok_bind,
      ih fun a' ha' => h a' (List.mem_cons_of_mem a ha'), List.foldl_cons]

/-- What every step of a fold keeps holds of its result. -/
theorem of_foldlM_eq_ok {f : β → α → Outcome β} {P : β → Prop} {as : List α} {b b' : β}
    (h : as.foldlM f b = .ok b') (hb : P b)
    (hstep : ∀ a ∈ as, ∀ b b', f b a = .ok b' → P b → P b') : P b' := by
  induction as generalizing b with
  | nil => exact Except.ok.inj h ▸ hb
  | cons a as ih =>
    rw [List.forall_mem_cons] at hstep
    obtain ⟨b'', hb'', h⟩ := bind_eq_ok.mp h
    exact ih h (hstep.1 b b'' hb'' hb) hstep.2

/-- A fold fails with the error of one of its steps. -/
theorem exists_of_foldlM_eq_error {f : β → α → Outcome β} {as : List α} {b : β} {e : Error}
    (h : as.foldlM f b = .error e) : ∃ a ∈ as, ∃ b', f b' a = .error e := by
  induction as generalizing b with
  | nil => cases h
  | cons a as ih =>
    rcases bind_eq_error.mp h with h | ⟨b', -, h⟩
    · exact ⟨a, List.mem_cons_self, b, h⟩
    · obtain ⟨a', ha', h⟩ := ih h
      exact ⟨a', List.mem_cons_of_mem a ha', h⟩

/-! ## Whether steps succeed -/

/-- Whether there is a result. -/
def Succeeds (x : Outcome α) : Prop :=
  ∃ a, x = .ok a

@[simp] theorem succeeds_ok (a : α) : Succeeds (.ok a) :=
  ⟨a, rfl⟩

@[simp] theorem not_succeeds_error (e : Error) : ¬Succeeds (.error e : Outcome α) :=
  nofun

theorem succeeds_bind {x : Outcome α} {f : α → Outcome β} :
    (x >>= f).Succeeds ↔ ∃ a, x = .ok a ∧ (f a).Succeeds := by
  cases x <;> simp

/-- A last step that cannot fail does not count. -/
theorem succeeds_bind_pure {x : Outcome α} {f : α → β} :
    (x >>= fun a => pure (f a)).Succeeds ↔ x.Succeeds := by
  cases x <;> simp

/-- A step over a list succeeds if it does for every element. -/
theorem succeeds_mapM {f : α → Outcome β} {as : List α} :
    (as.mapM f).Succeeds ↔ ∀ a ∈ as, (f a).Succeeds := by
  induction as with
  | nil => simp
  | cons a as ih =>
    rw [List.mapM_cons, succeeds_bind, List.forall_mem_cons, ← ih]
    constructor
    · rintro ⟨b, hb, hrest⟩
      exact ⟨⟨b, hb⟩, succeeds_bind_pure.mp hrest⟩
    · rintro ⟨⟨b, hb⟩, hrest⟩
      exact ⟨b, hb, succeeds_bind_pure.mpr hrest⟩

/-- A fold succeeds if every step does, when this does not depend on the steps before. -/
theorem succeeds_foldlM {f : β → α → Outcome β} {P : α → Prop} {as : List α}
    (h : ∀ a ∈ as, ∀ b, (f b a).Succeeds ↔ P a) (b : β) :
    (as.foldlM f b).Succeeds ↔ ∀ a ∈ as, P a := by
  induction as generalizing b with
  | nil => simp
  | cons a as ih =>
    rw [List.forall_mem_cons] at h ⊢
    rw [List.foldlM_cons, succeeds_bind, ← h.1 b]
    constructor
    · rintro ⟨b', hb', hrest⟩
      exact ⟨⟨b', hb'⟩, (ih h.2 b').mp hrest⟩
    · rintro ⟨⟨b', hb'⟩, hrest⟩
      exact ⟨b', hb', (ih h.2 b').mpr hrest⟩

/-! ## What steps give, and why they fail -/

/-- Whether a step gives what stands in a relation and nothing else, and fails for one of the given
reasons otherwise. -/
structure Reads (x : Outcome α) (R : α → Prop) (F : Error → Prop) : Prop where
  ok_iff : ∀ a, x = .ok a ↔ R a
  error : ∀ e, x = .error e → F e

variable {x : Outcome α} {f : α → Outcome β} {R R' : α → Prop} {F F' : Error → Prop}

theorem reads_ok {a : α} (hR : ∀ b, R b ↔ a = b) : Reads (.ok a) R F :=
  ⟨fun b => by rw [hR, Except.ok.injEq], nofun⟩

theorem reads_error {e : Error} (hR : ∀ a, ¬R a) (hF : F e) : Reads (.error e : Outcome α) R F :=
  ⟨fun a => iff_of_false nofun (hR a), fun _ he => Except.error.inj he ▸ hF⟩

theorem Reads.congr (h : x.Reads R F) (hR : ∀ a, R a ↔ R' a) (hF : ∀ e, F e → F' e) :
    x.Reads R' F' :=
  ⟨fun a => (h.ok_iff a).trans (hR a), fun e he => hF e (h.error e he)⟩

theorem Reads.unique (h : x.Reads R F) {a b : α} (ha : R a) (hb : R b) : a = b :=
  Except.ok.inj (((h.ok_iff a).mpr ha).symm.trans ((h.ok_iff b).mpr hb))

theorem Reads.bind {S : α → β → Prop} {G : α → Error → Prop} (hx : x.Reads R F)
    (hf : ∀ a, R a → (f a).Reads (S a) (G a)) :
    (x >>= f).Reads (fun b => ∃ a, R a ∧ S a b) (fun e => F e ∨ ∃ a, R a ∧ G a e) := by
  constructor
  · intro b
    rw [bind_eq_ok]
    refine exists_congr fun a => ?_
    rw [hx.ok_iff]
    exact and_congr_right fun ha => (hf a ha).ok_iff b
  · intro e he
    rcases bind_eq_error.mp he with he | ⟨a, ha, he⟩
    · exact .inl (hx.error e he)
    · have hR := (hx.ok_iff a).mp ha
      exact .inr ⟨a, hR, (hf a hR).error e he⟩

/-- A last step that cannot fail gives no reasons. -/
theorem Reads.bind_pure {g : α → β} (hx : x.Reads R F) :
    (x >>= fun a => pure (g a)).Reads (fun b => ∃ a, R a ∧ g a = b) F := by
  refine (hx.bind (S := fun a b => g a = b) (G := fun _ _ => False) fun a _ =>
    reads_ok fun b => Iff.rfl).congr (fun b => Iff.rfl) fun e he => he.resolve_right ?_
  rintro ⟨a, -, hfalse⟩
  exact hfalse

theorem reads_mapM {S : α → β → Prop} {G : α → Error → Prop} {as : List α}
    (h : ∀ a ∈ as, (f a).Reads (S a) (G a)) :
    (as.mapM f).Reads (List.Forall₂ S as) (fun e => ∃ a ∈ as, G a e) := by
  constructor
  · intro bs
    rw [mapM_eq_ok]
    exact forall₂_congr_of_mem fun a ha b => (h a ha).ok_iff b
  · intro e he
    obtain ⟨a, ha, he⟩ := exists_of_mapM_eq_error he
    exact ⟨a, ha, (h a ha).error e he⟩

end Outcome

end DocGraph
