import DocGraph.Proofs.Outcome
import DocGraph.Proofs.Query.Meaning

/-!
# What filters are compiled to

A comparison is compiled to a chain that ends in its constant, to the chains of its values,
or to the question whether its chain has a match, with or without tests at the end
(`FilterScope.CompiledComparison`). What is proved of the elements of a comparison is proved
by these cases (`comparison_eq_ok`), and in them by those of chains (`chain_cases`,
`allOf_cases`) and of tests (`test_eq_ok`).

A condition is compiled to the elements of its parts, whose comparisons are numbered one part
after the other (`compile_compare_eq_ok`, `compileAll_cons_eq_ok`, `union_eq_ok`,
`compileBranches_cons_eq_ok`).
-/

namespace DocGraph

open Rdf (Term)
open Sparql (Expr)

/-! ## Chains -/

section Chains

variable {s : Schema} {role : Role} {segments : List String} {steps : List PathStep}

/-- A chain is the test that the document itself is a constant, or has the hops of its path. -/
theorem chain_cases {constant : Option Term} {ch : Chain}
    (h : chain s role segments steps constant = .ok ch) :
    (∃ t, constant = some t ∧ withoutIdentity steps = [] ∧ ch = ⟨[isRoot t], .term t⟩) ∨
    (constant = none ∨ withoutIdentity steps ≠ []) ∧
      chainFrom s role segments constant rootNode 0 (withoutIdentity steps) = .ok ch := by
  unfold chain at h
  split at h
  · next t hnil => exact .inl ⟨t, rfl, hnil, (Except.ok.inj h).symm⟩
  · next hno =>
    refine .inr ⟨or_iff_not_imp_left.mpr fun hconstant hnil => ?_, h⟩
    obtain ⟨t, ht⟩ := Option.ne_none_iff_exists'.mp hconstant
    exact hno t hnil ht

/-- The chains of several values test the document itself, or share all hops but the last. -/
theorem FilterScope.allOf_cases {f : FilterScope} {values : List Term} {es : List Element}
    (h : f.allOf role segments steps values = .ok es) :
    (withoutIdentity steps = [] ∧ es = values.map isRoot) ∨
    ∃ front last parent ends, withoutIdentity steps = front ++ [last] ∧
      chain f.schema role segments front none = .ok parent ∧
      List.Forall₂ (fun v here => hop f.schema parent.terminal last (.term v) = .ok here)
        values ends ∧
      es = parent.elements ++ ends.flatten := by
  unfold allOf at h
  dsimp only at h
  split at h
  · next hlast => exact .inl ⟨List.getLast?_eq_none_iff.mp hlast, (Except.ok.inj h).symm⟩
  · next last hlast =>
    obtain ⟨front, hfront⟩ := List.getLast?_eq_some_iff.mp hlast
    rw [hfront, List.dropLast_concat] at h
    obtain ⟨parent, hparent, h⟩ := Outcome.bind_eq_ok.mp h
    obtain ⟨ends, hends, h⟩ := Outcome.bind_eq_ok.mp h
    exact .inr ⟨front, last, parent, ends, hfront, hparent, Outcome.mapM_eq_ok.mp hends,
      (Except.ok.inj h).symm⟩

end Chains

/-! ## Comparisons -/

/-- An operator that is not negative is its own positive form. -/
theorem Operator.positive_eq_self {op : Operator} (h : ¬op.polarity = .negative) :
    op.positive = op := by
  rw [positive]
  cases hp : op.polarity with
  | positive => rfl
  | negative => exact absurd hp h

theorem Operator.positive_ne_search {op : Operator} (h : op ≠ .search ∧ op ≠ .notSearch) :
    op.positive ≠ .search := by
  revert h
  cases op <;> simp [positive, polarity, inverse]

namespace FilterScope

variable {f : FilterScope} {n m : Nat} {cmp : Comparison} {es : List Element}

/-- What the test of a value by an operator is. -/
inductive CompiledTest (f : FilterScope) (cmp : Comparison) (value : Expr) :
    Operator → Expr → Prop
  | eq {t : Term} (ht : f.constant cmp.path cmp.operand = .ok t) :
    CompiledTest f cmp value .eq (.relation .equal value (.ofTerm t))
  | gt {t : Term} (ht : f.constant cmp.path cmp.operand = .ok t) :
    CompiledTest f cmp value .gt (.relation .greater value (.ofTerm t))
  | gte {t : Term} (ht : f.constant cmp.path cmp.operand = .ok t) :
    CompiledTest f cmp value .gte (.relation .greaterOrEqual value (.ofTerm t))
  | lt {t : Term} (ht : f.constant cmp.path cmp.operand = .ok t) :
    CompiledTest f cmp value .lt (.relation .less value (.ofTerm t))
  | lte {t : Term} (ht : f.constant cmp.path cmp.operand = .ok t) :
    CompiledTest f cmp value .lte (.relation .lessOrEqual value (.ofTerm t))
  | oneOf {ts : List Term} (hts : f.constants cmp.path cmp.operand = .ok ts) :
    CompiledTest f cmp value .oneOf (.oneOf value (ts.map .ofTerm))
  | regex {pattern : String} (hpattern : cmp.operand = .str pattern) :
    CompiledTest f cmp value .regex (.call .regex [.call .str [value], .string pattern])
  | iregex {pattern : String} (hpattern : cmp.operand = .str pattern) :
    CompiledTest f cmp value .iregex
      (.call .regex [.call .str [value], .string pattern, .string "i"])
  | strlen {number : Json.Number} {length : Int} (hnumber : cmp.operand = .num number)
    (hlength : number.signed? = some length) :
    CompiledTest f cmp value .strlen
      (.relation .equal (.call .strlen [.call .str [value]]) (.literal (.ofInt length)))

theorem test_eq_ok {operator : Operator} {value e : Expr}
    (h : f.test cmp operator value = .ok e) : f.CompiledTest cmp value operator e := by
  cases operator with
  | eq | gt | gte | lt | lte =>
    obtain ⟨t, ht, h⟩ := Outcome.bind_eq_ok.mp h
    obtain rfl := Except.ok.inj h
    constructor
    exact ht
  | oneOf =>
    obtain ⟨ts, hts, h⟩ := Outcome.bind_eq_ok.mp h
    obtain rfl := Except.ok.inj h
    exact .oneOf hts
  | regex | iregex =>
    unfold test at h
    dsimp only at h
    split at h
    · next hpattern =>
      obtain rfl := Except.ok.inj h
      constructor
      exact hpattern
    · cases h
  | strlen =>
    unfold test at h
    dsimp only at h
    split at h
    · next hnumber =>
      split at h
      · next hlength =>
        obtain rfl := Except.ok.inj h
        exact .strlen hnumber hlength
      · cases h
    · cases h
  | _ => cases h

/-- What the comparison with number `n` is compiled to, where its path takes some steps. -/
inductive CompiledComparison (f : FilterScope) (n : Nat) (cmp : Comparison)
    (steps : List PathStep) : List Element → Prop
  /-- An equality on a path without a column is a chain that ends in the constant. -/
  | inlined {t : Term} {ch : Chain} (hinlined : f.isInlined cmp = true)
    (ht : f.constant cmp.path cmp.operand = .ok t)
    (hch : chain f.schema (.filter n) cmp.path.segments steps (some t) = .ok ch) :
    CompiledComparison f n cmp steps ch.elements
  | all {ts : List Term} {inner : List Element} (hall : cmp.operator.positive = .all)
    (hts : f.constants cmp.path cmp.operand = .ok ts)
    (hinner : f.allOf (.filter n) cmp.path.segments steps ts = .ok inner) :
    CompiledComparison f n cmp steps
      (if cmp.operator.polarity = .negative then existence true inner else inner)
  /-- There is always the document itself. -/
  | itself {ch : Chain} (hpresent : cmp.operator.positive = .present)
    (hch : chain f.schema (.filter n) cmp.path.segments steps none = .ok ch)
    (hempty : ch.elements = []) :
    CompiledComparison f n cmp steps
      (if cmp.operator.polarity = .negative then [.filter (.literal (.ofBool false))] else [])
  | present {ch : Chain} (hpresent : cmp.operator.positive = .present)
    (hch : chain f.schema (.filter n) cmp.path.segments steps none = .ok ch) :
    CompiledComparison f n cmp steps (existence (cmp.operator.polarity = .negative) ch.elements)
  | search {ch : Chain} {text : String} (hsearch : cmp.operator.positive = .search)
    (htext : cmp.operand = .str text)
    (hch : chain f.schema (.filter n) cmp.path.segments steps none = .ok ch) :
    CompiledComparison f n cmp steps (existence (cmp.operator.polarity = .negative)
      (ch.elements ++
        [.statement ch.terminal f.fullText.search (.term (.literal (.plain text))),
          .statement ch.terminal f.fullText.matchAllTerms (.term (.literal (.plain "true")))]))
  /-- All that is left is a test of the values at the path. -/
  | tested {ch : Chain} {e : Expr} (hinlined : f.isInlined cmp = false)
    (hall : cmp.operator.positive ≠ .all)
    (hch : chain f.schema (.filter n) cmp.path.segments steps none = .ok ch)
    (he : f.CompiledTest cmp (.ofNode ch.terminal) cmp.operator.positive e) :
    CompiledComparison f n cmp steps
      (existence (cmp.operator.polarity = .negative) (ch.elements ++ [.filter e]))

theorem isInlined_iff : f.isInlined cmp = true ↔
    cmp.operator.positive = .eq ∧ ¬cmp.operator.polarity = .negative ∧
      (cmp.path.isIdentity = true ∨ cmp.path ∉ f.projected) := by
  rw [isInlined, decide_eq_true_iff]
  constructor
  · rintro ⟨hop, hpath⟩
    rw [hop]
    exact ⟨rfl, by decide, hpath⟩
  · rintro ⟨hop, hpolarity, hpath⟩
    exact ⟨(Operator.positive_eq_self hpolarity).symm.trans hop, hpath⟩

/-- A comparison that is compiled has a path, and is one of the kinds of comparisons there. -/
theorem comparison_eq_ok (h : f.comparison n cmp = .ok es) :
    ∃ r, f.schema.resolve f.model cmp.path = .ok r ∧ f.CompiledComparison n cmp r.steps es := by
  obtain ⟨r, hr, h⟩ := Outcome.bind_eq_ok.mp h
  refine ⟨r, hr, ?_⟩
  dsimp only at h
  split at h
  · next hinlined =>
    obtain ⟨t, ht, h⟩ := Outcome.bind_eq_ok.mp h
    obtain ⟨ch, hch, h⟩ := Outcome.bind_eq_ok.mp h
    obtain rfl := Except.ok.inj h
    exact .inlined (isInlined_iff.mpr hinlined) ht hch
  next hinlined =>
  split at h
  · next hall =>
    obtain ⟨ts, hts, h⟩ := Outcome.bind_eq_ok.mp h
    obtain ⟨inner, hinner, h⟩ := Outcome.bind_eq_ok.mp h
    obtain rfl := Except.ok.inj h
    exact .all hall hts hinner
  next hall =>
  split at h
  · next hpresent =>
    obtain ⟨ch, hch, h⟩ := Outcome.bind_eq_ok.mp h
    split at h
    · next hempty =>
      obtain rfl := Except.ok.inj h
      exact .itself hpresent hch (List.isEmpty_iff.mp hempty)
    · obtain rfl := Except.ok.inj h
      exact .present hpresent hch
  split at h
  · next hsearch =>
    split at h
    · next text htext =>
      obtain ⟨ch, hch, h⟩ := Outcome.bind_eq_ok.mp h
      obtain rfl := Except.ok.inj h
      exact .search hsearch htext hch
    · cases h
  · obtain ⟨ch, hch, h⟩ := Outcome.bind_eq_ok.mp h
    obtain ⟨e, he, h⟩ := Outcome.bind_eq_ok.mp h
    obtain rfl := Except.ok.inj h
    exact .tested (Bool.eq_false_iff.mpr fun h => hinlined (isInlined_iff.mp h)) hall hch
      (test_eq_ok he)

/-- What a full-text search is compiled to. -/
theorem CompiledComparison.of_search {steps : List PathStep}
    (h : f.CompiledComparison n cmp steps es) (hsearch : cmp.operator.positive = .search) :
    ∃ (ch : Chain) (text : String), cmp.operand = .str text ∧
      chain f.schema (.filter n) cmp.path.segments steps none = .ok ch ∧
      es = existence (cmp.operator.polarity = .negative) (ch.elements ++
        [.statement ch.terminal f.fullText.search (.term (.literal (.plain text))),
          .statement ch.terminal f.fullText.matchAllTerms (.term (.literal (.plain "true")))]) := by
  cases h with
  | search _ htext hch => exact ⟨_, _, htext, hch, rfl⟩
  | inlined hinlined =>
    have heq := (isInlined_iff.mp hinlined).1
    rw [hsearch] at heq
    cases heq
  | all hop | itself hop | present hop =>
    rw [hsearch] at hop
    cases hop
  | tested _ _ _ he =>
    rw [hsearch] at he
    cases he

/-! ## Conditions -/

section Conditions

variable {negated : Bool} {cond : Condition} {conds : List Condition} {anchor : Element}
  {branches : List (List Element)}

theorem compile_compare_eq_ok : f.compile negated n (.compare cmp) = .ok (es, m) ↔
    f.comparison n (if negated then cmp.inverse else cmp) = .ok es ∧ m = n + 1 := by
  rw [compile, Outcome.bind_eq_ok]
  constructor
  · rintro ⟨here, hhere, h⟩
    obtain ⟨rfl, rfl⟩ := Prod.mk.inj (Except.ok.inj h)
    exact ⟨hhere, rfl⟩
  · rintro ⟨hhere, rfl⟩
    exact ⟨es, hhere, rfl⟩

/-- The elements of conditions that all hold are those of the first one and then the others. -/
theorem compileAll_cons_eq_ok :
    f.compileAll negated n (cond :: conds) = .ok (es, m) ↔
      ∃ here k others, f.compile negated n cond = .ok (here, k) ∧
        f.compileAll negated k conds = .ok (others, m) ∧ es = here ++ others := by
  rw [compileAll, Outcome.bind_eq_ok]
  constructor
  · rintro ⟨⟨here, k⟩, hhere, h⟩
    obtain ⟨⟨others, k'⟩, hothers, h⟩ := Outcome.bind_eq_ok.mp h
    obtain ⟨rfl, rfl⟩ := Prod.mk.inj (Except.ok.inj h)
    exact ⟨here, k, others, hhere, hothers, rfl⟩
  · rintro ⟨here, k, others, hhere, hothers, rfl⟩
    exact ⟨_, hhere, Outcome.bind_eq_ok.mpr ⟨_, hothers, rfl⟩⟩

/-- The branches of conditions one of which holds are that of the first one, behind the anchor,
and then the others. -/
theorem compileBranches_cons_eq_ok :
    f.compileBranches negated anchor n (cond :: conds) = .ok (branches, m) ↔
      ∃ here k others, f.compile negated n cond = .ok (here, k) ∧
        f.compileBranches negated anchor k conds = .ok (others, m) ∧
        branches = (anchor :: here) :: others := by
  rw [compileBranches, Outcome.bind_eq_ok]
  constructor
  · rintro ⟨⟨here, k⟩, hhere, h⟩
    obtain ⟨⟨others, k'⟩, hothers, h⟩ := Outcome.bind_eq_ok.mp h
    obtain ⟨rfl, rfl⟩ := Prod.mk.inj (Except.ok.inj h)
    exact ⟨here, k, others, hhere, hothers, rfl⟩
  · rintro ⟨here, k, others, hhere, hothers, rfl⟩
    exact ⟨_, hhere, Outcome.bind_eq_ok.mpr ⟨_, hothers, rfl⟩⟩

theorem union_eq_ok :
    (do return unionElement (← f.compileBranches negated (← f.anchor) n conds)) =
        Except.ok (es, m) ↔
      ∃ anchor branches, f.anchor = .ok anchor ∧
        f.compileBranches negated anchor n conds = .ok (branches, m) ∧ es = [.union branches] := by
  rw [Outcome.bind_eq_ok]
  constructor
  · rintro ⟨anchor, hanchor, h⟩
    obtain ⟨⟨branches, k⟩, hbranches, h⟩ := Outcome.bind_eq_ok.mp h
    obtain ⟨rfl, rfl⟩ := Prod.mk.inj (Except.ok.inj h)
    exact ⟨anchor, branches, hanchor, hbranches, rfl⟩
  · rintro ⟨anchor, branches, hanchor, hbranches, rfl⟩
    exact ⟨anchor, hanchor, Outcome.bind_eq_ok.mpr ⟨_, hbranches, rfl⟩⟩

end Conditions

end FilterScope

end DocGraph
