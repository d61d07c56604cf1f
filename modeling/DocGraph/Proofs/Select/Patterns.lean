import DocGraph.Proofs.Column.Packed
import DocGraph.Proofs.Select.Group
import DocGraph.Proofs.Sparql.Matching
import DocGraph.Proofs.Sparql.Tests

/-!
# Patterns of selections

The pattern of a selection joins the patterns of its reductions one after the other, and
then wraps the packed texts of its columns. No wrapping changes what another one reads
(`Wrapping.wrapAll_of_mem`).
-/

namespace DocGraph

open Rdf (Dataset Term Variable)
open Sparql (Context Expr Pattern Solution Solutions Store concatenated)
open Sparql.Solutions (join)

theorem Selection.eval_inGraph (s : Selection) (p : Pattern) (store : Store) (data : Dataset) :
    (s.inGraph p).eval { store := store, data := data } =
      p.eval { store := store, data := data, graph := s.graph } := by
  unfold inGraph
  cases s.graph with
  | none => rfl
  | some g => exact Pattern.eval.eq_7 _ _ _

theorem eval_foldl_joined {α : Type} (f : α → Pattern) (as : List α) (p : Pattern) (c : Context) :
    (as.foldl (fun p a => p.joined (f a)) p).eval c =
      as.foldl (fun ss a => join ss ((f a).eval c)) (p.eval c) := by
  induction as generalizing p with
  | nil => rfl
  | cons a as ih => rw [List.foldl_cons, ih, Pattern.eval_joined, List.foldl_cons]

/-- The value of the packed text of a column. -/
def Wrapping.expr (w : Wrapping) : Expr :=
  .call .concat [.string w.packing.opening, .var w.raw, .string w.packing.closing]

theorem eval_foldl_around (ws : List Wrapping) (p : Pattern) (c : Context) :
    (ws.foldl Wrapping.around p).eval c =
      ws.foldl (fun ss w => ss.map fun μ => μ.extended c w.result w.expr) (p.eval c) := by
  induction ws generalizing p with
  | nil => rfl
  | cons w ws ih =>
    rw [List.foldl_cons, ih, List.foldl_cons]
    rfl

/-! ## Packed texts -/

theorem Sparql.Solution.extended_of_ne {c : Context} {μ : Solution} {v w : Variable} {e : Expr}
    (h : w ≠ v) : μ.extended c v e w = μ w := by
  rw [extended]
  cases e.eval c μ with
  | none => rfl
  | some t => exact set_of_ne μ h t

theorem Sparql.Solution.extended_self {c : Context} {μ : Solution} {v : Variable} {e : Expr}
    {t : Term} (h : e.eval c μ = some t) : μ.extended c v e v = some t := by
  rw [extended, h]
  exact set_self μ v t

namespace Wrapping

variable {c : Context} {w : Wrapping} {ws : List Wrapping} {μ : Solution} {v : Variable}
  {texts : List String}

theorem eval_expr (hc : c.given = .empty)
    (hraw : μ w.raw = some (.literal (.plain (concatenated w.packing.separator texts)))) :
    w.expr.eval c μ = some (.literal (.plain (w.packing.textOf texts))) := by
  have hvar : (Expr.var w.raw).eval c μ = μ w.raw := Context.value?_eq hc μ _
  rw [expr, Expr.eval_call [.literal (.plain w.packing.opening),
    .literal (.plain (concatenated w.packing.separator texts)),
    .literal (.plain w.packing.closing)]]
  · have hjoin (a b d : String) : String.join [a, b, d] = a ++ b ++ d := by
      simp [String.join]
    exact congrArg (fun text => some (Term.literal (.plain text))) (hjoin _ _ _)
  · simp only [List.map_cons, List.map_nil, hvar, hraw]
    rfl

/-- The solution with the packed texts of several columns. -/
noncomputable def wrapAll (c : Context) (ws : List Wrapping) (μ : Solution) : Solution :=
  ws.foldl (fun μ w => μ.extended c w.result w.expr) μ

theorem foldl_map_extended {α : Type} (K : Multiset α) (f : α → Solution) :
    ws.foldl (fun ss w => ss.map fun μ => μ.extended c w.result w.expr) (K.map f) =
      K.map fun a => wrapAll c ws (f a) := by
  induction ws generalizing f with
  | nil => rfl
  | cons w ws ih =>
    rw [List.foldl_cons, Multiset.map_map, ih]
    rfl

theorem wrapAll_of_notMem (h : v ∉ ws.map result) : wrapAll c ws μ v = μ v := by
  induction ws generalizing μ with
  | nil => rfl
  | cons w ws ih =>
    rw [List.map_cons, List.mem_cons, not_or] at h
    exact (ih h.2).trans (Solution.extended_of_ne h.1)

theorem wrapAll_of_mem (hc : c.given = .empty) (hdistinct : (ws.map result).Nodup)
    (hraws : ∀ w ∈ ws, w.raw ∉ ws.map result) (h : w ∈ ws)
    (hraw : μ w.raw = some (.literal (.plain (concatenated w.packing.separator texts)))) :
    wrapAll c ws μ w.result = some (.literal (.plain (w.packing.textOf texts))) := by
  induction ws generalizing μ with
  | nil => cases h
  | cons w' ws ih =>
    simp only [List.map_cons, List.mem_cons, not_or] at hraws
    rw [List.map_cons, List.nodup_cons] at hdistinct
    rcases List.mem_cons.mp h with rfl | h
    · exact (wrapAll_of_notMem hdistinct.1).trans (Solution.extended_self (eval_expr hc hraw))
    · refine ih hdistinct.2 (fun u hu => (hraws u (.inr hu)).2) h ?_
      exact (Solution.extended_of_ne (hraws w (.inr h)).1).trans hraw

end Wrapping

end DocGraph
