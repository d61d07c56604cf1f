import DocGraph.Proofs.Select.Group

/-!
# When tests hold

What it takes for the tests of a filter to accept a solution, one lemma for each
form of expression. An error never accepts one.
-/

namespace DocGraph.Sparql

open Rdf (Term)

variable {c : Context} {μ : Solution} {e : Expr} {t u : Term}

namespace Expr

theorem holds_of_eval_ofBool {b : Bool} (h : e.eval c μ = some (ofBool b)) :
    e.Holds c μ ↔ b = true := by
  rw [Holds, h, Option.bind_some, Store.truthOf_ofBool, Option.some.injEq]

theorem holds_of_eval_map {o : Option Bool} (h : e.eval c μ = o.map ofBool) :
    e.Holds c μ ↔ o = some true := by
  rw [Holds, h]
  cases o <;> simp

theorem holds_relation {r : Relation} {a b : Expr} (ha : a.eval c μ = some t)
    (hb : b.eval c μ = some u) :
    (Expr.relation r a b).Holds c μ ↔ c.store.related r t u = some true := by
  refine holds_of_eval_map ?_
  simp only [eval, ha, hb, Option.bind_eq_bind, Option.bind_some]
  cases c.store.related r t u <;> rfl

theorem holds_hasMatch {p : Pattern} :
    (Expr.hasMatch p).Holds c μ ↔ p.eval (c.substituted μ) ≠ 0 := by
  classical
  rw [holds_of_eval_ofBool (b := decide (p.eval (c.substituted μ) ≠ 0)) (by rw [eval]),
    decide_eq_true_iff]

theorem holds_not_hasMatch {p : Pattern} :
    (Expr.not (.hasMatch p)).Holds c μ ↔ p.eval (c.substituted μ) = 0 := by
  classical
  rw [holds_of_eval_map (o := some !decide (p.eval (c.substituted μ) ≠ 0))
    (by simp only [eval, Option.bind_some, Store.truthOf_ofBool, Option.map_some])]
  simp

/-- A blank node cannot be written as an expression. -/
theorem eval_ofTerm (h : ∀ name, t ≠ .blank name) : (ofTerm t).eval c μ = some t := by
  cases t with
  | iri i => rfl
  | literal l => rfl
  | blank name => exact absurd rfl (h name)

theorem eval_ofNode_var (v : Rdf.Variable) :
    (ofNode (.var v)).eval c μ = c.value? μ v := rfl

theorem evalAll_eq_map (es : List Expr) : evalAll es c μ = es.map fun e => e.eval c μ := by
  induction es with
  | nil => rfl
  | cons e es ih => rw [evalAll, ih, List.map_cons]

theorem eval_call {f : Function} {args : List Expr} (ts : List Term)
    (h : args.map (fun e => e.eval c μ) = ts.map some) :
    (Expr.call f args).eval c μ = c.store.call f ts := by
  have hid : ∀ ts : List Term, (ts.map some).mapM id = some ts := fun ts => by
    induction ts with
    | nil => rfl
    | cons t ts ih => simp [ih]
  rw [eval, evalAll_eq_map, h, hid]
  rfl

theorem eval_str (h : e.eval c μ = some t) :
    (Expr.call .str [e]).eval c μ = t.text?.map fun text => .literal (.plain text) :=
  eval_call [t] (by rw [List.map_singleton, h]; rfl)

end Expr

/-- An error on the way does not keep a value from being found. -/
theorem Store.oneOf_eq_true {s : Store} {us : List (Option Term)} :
    s.oneOf t us = some true ↔ ∃ u, some u ∈ us ∧ s.related .equal t u = some true := by
  induction us with
  | nil => simp [oneOf]
  | cons u us ih =>
    have hsplit : s.oneOf t (u :: us) = some true ↔
        u.bind (s.related .equal t) = some true ∨ s.oneOf t us = some true := by
      rw [oneOf]
      rcases u.bind (s.related .equal t) with _ | _ | _ <;>
        rcases s.oneOf t us with _ | _ | _ <;> simp
    rw [hsplit, ih]
    constructor
    · rintro (h | ⟨w, hw, h⟩)
      · obtain ⟨w, rfl, h⟩ := Option.bind_eq_some_iff.mp h
        exact ⟨w, List.mem_cons_self, h⟩
      · exact ⟨w, List.mem_cons_of_mem _ hw, h⟩
    · rintro ⟨w, hw, h⟩
      rcases List.mem_cons.mp hw with rfl | hw
      · exact .inl h
      · exact .inr ⟨w, hw, h⟩

namespace Expr

theorem holds_oneOf {ts : List Term} (he : e.eval c μ = some t)
    (hts : ∀ u ∈ ts, ∀ name, u ≠ .blank name) :
    (Expr.oneOf e (ts.map .ofTerm)).Holds c μ ↔
      ∃ u ∈ ts, c.store.related .equal t u = some true := by
  have hall : evalAll (ts.map .ofTerm) c μ = ts.map some := by
    rw [evalAll_eq_map, List.map_map]
    exact List.map_congr_left fun u hu => eval_ofTerm (hts u hu)
  have heval : (Expr.oneOf e (ts.map .ofTerm)).eval c μ =
      (c.store.oneOf t (ts.map some)).map ofBool := by
    simp only [eval, he, hall, Option.bind_eq_bind, Option.bind_some]
    cases c.store.oneOf t (ts.map some) <;> rfl
  rw [holds_of_eval_map heval, Store.oneOf_eq_true]
  simp only [List.mem_map, Option.some.injEq, exists_eq_right]

/-- A regular expression is matched with the text of a term, under the flags if
there are any. -/
theorem holds_regex {pattern flags : String} {rest : List Expr}
    (hrest : rest = [] ∧ flags = "" ∨ rest = [.string flags]) (he : e.eval c μ = some t) :
    (Expr.call .regex (.call .str [e] :: .string pattern :: rest)).Holds c μ ↔
      ∃ text, t.text? = some text ∧ c.store.regex text pattern flags = some true := by
  cases ht : t.text? with
  | none =>
    have hnone :
        (Expr.call .regex (.call .str [e] :: .string pattern :: rest)).eval c μ = none := by
      simp [eval, evalAll, he, ht, Store.call]
    simp [Holds, hnone]
  | some text =>
    have hstr : (Expr.call .str [e]).eval c μ = some (.literal (.plain text)) := by
      rw [eval_str he, ht, Option.map_some]
    have heval : (Expr.call .regex (.call .str [e] :: .string pattern :: rest)).eval c μ =
        (c.store.regex text pattern flags).map ofBool := by
      rcases hrest with ⟨rfl, rfl⟩ | rfl
      · rw [eval_call [.literal (.plain text), .literal (.plain pattern)]
          (by rw [List.map_cons, hstr]; rfl)]
        simp only [Store.call, Term.string?, Option.bind_eq_bind, Option.bind_some]
        cases c.store.regex text pattern "" <;> rfl
      · rw [eval_call [.literal (.plain text), .literal (.plain pattern), .literal (.plain flags)]
          (by rw [List.map_cons, hstr]; rfl)]
        simp only [Store.call, Term.string?, Option.bind_eq_bind, Option.bind_some]
        cases c.store.regex text pattern flags <;> rfl
    rw [holds_of_eval_map heval]
    simp

theorem holds_strlen {n : Int} (he : e.eval c μ = some t) :
    (Expr.relation .equal (.call .strlen [.call .str [e]]) (.literal (.ofInt n))).Holds c μ ↔
      ∃ text, t.text? = some text ∧ (text.length : Int) = n := by
  cases ht : t.text? with
  | none =>
    have hnone : (Expr.relation .equal (.call .strlen [.call .str [e]])
        (.literal (.ofInt n))).eval c μ = none := by
      simp [eval, evalAll, he, ht, Store.call]
    simp [Holds, hnone]
  | some text =>
    have hstr : (Expr.call .str [e]).eval c μ = some (.literal (.plain text)) := by
      rw [eval_str he, ht, Option.map_some]
    have hlen : (Expr.call .strlen [.call .str [e]]).eval c μ =
        some (.literal (.ofInt text.length)) :=
      eval_call [.literal (.plain text)] (by rw [List.map_singleton, hstr]; rfl)
    rw [holds_relation hlen (by rw [eval])]
    simp only [Store.related, c.store.compare_int, Relation.holds, Option.some.injEq,
      decide_eq_true_iff, exists_eq_left']

end Expr

end DocGraph.Sparql
