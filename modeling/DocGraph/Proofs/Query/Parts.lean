import DocGraph.Proofs.Dict
import DocGraph.Proofs.Outcome
import DocGraph.Query.Reader

/-!
# The parts of a query

What the values in a query have to be, what is read of them and why they are refused. A field is
a path, a list of one path, or an object with a path and members (`SelectorFrom`,
`SelectorFails`), and an aggregated field an object that names an aggregator in one of two ways
(`Names`, `AggregationFrom`, `AggregationFails`). What the reader does not look at does not
count: other keys of these objects, and all aggregators but the one that is named in full or first.
-/

namespace DocGraph

open Json (Value)
open Outcome (Reads reads_error reads_mapM reads_ok)

namespace Spec

variable {name : String} {v : Value} {members : Dict Value}

/-! ## Objects -/

theorem reads_objectNamed (name : String) (v : Value) :
    (objectNamed name v).Reads (fun members => v = .obj members)
      (fun e => (∀ members, v ≠ .obj members) ∧ e = .invalidQuery (.objectExpected name)) := by
  cases v with
  | obj members => exact reads_ok fun _ => Value.obj.injEq _ _ ▸ Iff.rfl
  | _ => exact reads_error (by rintro _ ⟨⟩) ⟨by rintro _ ⟨⟩, rfl⟩

/-- Whether a dictionary is read from the members of an object, each under its key. -/
def EntriesFrom {α : Type} (R : Value → α → Prop) (v : Value) (d : Dict α) : Prop :=
  ∃ members, v = .obj members ∧ List.Forall₂ (fun m e => e.1 = m.1 ∧ R m.2 e.2) members d

/-- Why no dictionary is read from a value: it is no object, or one of its members is refused. -/
inductive EntriesFail (name : String) (F : String → Value → Error → Prop) : Value → Error → Prop
  | notObject {v : Value} : (∀ members, v ≠ .obj members) →
    EntriesFail name F v (.invalidQuery (.objectExpected name))
  | member {members : Dict Value} {m : String × Value} {e : Error} : m ∈ members →
    F m.1 m.2 e → EntriesFail name F (.obj members) e

theorem reads_entries {α : Type} {read : String → Value → Outcome α} {R : Value → α → Prop}
    {F : String → Value → Error → Prop} (h : ∀ key v, (read key v).Reads (R v) (F key v))
    (name : String) (v : Value) :
    Reads (do
        (← objectNamed name v).mapM fun (key, w) => do
          return (key, ← read key w)) (EntriesFrom R v) (EntriesFail name F v) := by
  have hmember (m : String × Value) :
      Reads (do return (m.1, ← read m.1 m.2)) (fun e : String × α => e.1 = m.1 ∧ R m.2 e.2)
        (F m.1 m.2) := by
    refine (h m.1 m.2).bind_pure.congr (fun e => ?_) fun _ => id
    constructor
    · rintro ⟨a, ha, rfl⟩
      exact ⟨rfl, ha⟩
    · rintro ⟨hkey, ha⟩
      exact ⟨e.2, ha, Prod.ext hkey.symm rfl⟩
  refine ((reads_objectNamed name v).bind fun members _ =>
    reads_mapM fun m _ => hmember m).congr (fun d => Iff.rfl) ?_
  rintro e (⟨hv, rfl⟩ | ⟨members, rfl, m, hm, he⟩)
  · exact .notObject hv
  · exact .member hm he

theorem EntriesFrom.keys {α : Type} {R : Value → α → Prop} {d : Dict α}
    (h : EntriesFrom R (.obj members) d) : Dict.keys d = Dict.keys members := by
  obtain ⟨members', hv, hd⟩ := h
  obtain rfl := Value.obj.inj hv
  clear hv
  induction hd with
  | nil => rfl
  | cons he _ ih => rw [Dict.keys_cons, Dict.keys_cons, he.1, ih]

/-- What is at a key if it is a text. -/
theorem bind_str? {key text : String} :
    (Dict.get? key members).bind Value.str? = some text ↔
      Dict.get? key members = some (.str text) := by
  cases hget : Dict.get? key members with
  | none => simp
  | some v => cases v <;> simp [Value.str?]

/-! ## Fields -/

/-- A path is read from its text. -/
def PathFrom (v : Value) (path : Path) : Prop :=
  ∃ text, v = .str text ∧ path = .ofText text

/-- Why the members of the objects of a field are refused. -/
def MembersFail (name : String) : Value → Error → Prop :=
  EntriesFail name fun member v e =>
    (∀ text, v ≠ .str text) ∧ e = .invalidQuery (.memberNotPath member name)

/-- Reads the path of one member. -/
def readPath (name member : String) : Value → Outcome Path
  | .str text => .ok (.ofText text)
  | _ => fail (.memberNotPath member name)

theorem reads_path (name member : String) (v : Value) :
    (readPath name member v).Reads (PathFrom v)
      (fun e => (∀ text, v ≠ .str text) ∧ e = .invalidQuery (.memberNotPath member name)) := by
  cases v with
  | str text =>
    refine reads_ok fun path => ⟨?_, ?_⟩
    · rintro ⟨text', htext, rfl⟩
      rw [Value.str.inj htext]
    · rintro rfl
      exact ⟨text, rfl, rfl⟩
  | _ => exact reads_error (by rintro path ⟨text, ⟨⟩, -⟩) ⟨fun _ => nofun, rfl⟩

theorem reads_members (name : String) (v : Value) :
    (readMembers name v).Reads (EntriesFrom PathFrom v) (MembersFail name v) := by
  have hread : readMembers name v = (do
      (← objectNamed name v).mapM fun (key, w) => do
        return (key, ← readPath name key w)) := by
    unfold readMembers
    refine congrArg (objectNamed name v >>= ·) (funext fun members => ?_)
    refine congrArg (List.mapM · members) (funext fun ⟨key, w⟩ => ?_)
    cases w <;> rfl
  rw [hread]
  exact reads_entries (reads_path name) name v

/-- What is read of the value of a field. -/
inductive SelectorFrom : Value → Selector → Prop
  | scalar {text : String} : SelectorFrom (.str text) (.scalar (.ofText text))
  | array {text : String} : SelectorFrom (.arr [.str text]) (.array (.ofText text))
  | property {members : Dict Value} {text : String} :
    Dict.get? propertyKey members = some (.str text) → Dict.get? membersKey members = none →
      SelectorFrom (.obj members) (.array (.ofText text))
  | objects {members : Dict Value} {text : String} {fields : Value} {paths : Dict Path} :
    Dict.get? propertyKey members = some (.str text) →
      Dict.get? membersKey members = some fields → EntriesFrom PathFrom fields paths →
      SelectorFrom (.obj members) (.objects (.ofText text) paths)

/-- Why the value of a field is refused. -/
inductive SelectorFails (name : String) : Value → Error → Prop
  | list {items : List Value} : (∀ text, items ≠ [.str text]) →
    SelectorFails name (.arr items) (.invalidQuery (.arrayField name))
  | noProperty {members : Dict Value} :
    (∀ text, Dict.get? propertyKey members ≠ some (.str text)) →
      SelectorFails name (.obj members) (.invalidQuery (.fieldWithoutProperty name))
  | members {members : Dict Value} {fields : Value} {e : Error} :
    Dict.get? membersKey members = some fields → MembersFail name fields e →
      SelectorFails name (.obj members) e
  | other {v : Value} : (∀ text, v ≠ .str text) → (∀ items, v ≠ .arr items) →
    (∀ members, v ≠ .obj members) → SelectorFails name v (.invalidQuery (.invalidSelector name))

theorem reads_selector_arr (name : String) (items : List Value) :
    (readSelector name (.arr items)).Reads (SelectorFrom (.arr items))
      (SelectorFails name (.arr items)) := by
  by_cases htext : ∃ text, items = [.str text]
  · obtain ⟨text, rfl⟩ := htext
    exact reads_ok fun _ => ⟨by rintro ⟨⟩; rfl, by rintro rfl; exact .array⟩
  · have hread : readSelector name (.arr items) = fail (.arrayField name) := by
      unfold readSelector
      split <;> simp_all
    rw [hread]
    refine reads_error (fun a ha => ?_) (.list fun text he => htext ⟨text, he⟩)
    cases ha
    exact htext ⟨_, rfl⟩

theorem reads_selector_obj (name : String) (members : Dict Value) :
    (readSelector name (.obj members)).Reads (SelectorFrom (.obj members))
      (SelectorFails name (.obj members)) := by
  cases hproperty : (Dict.get? propertyKey members).bind Value.str? with
  | none =>
    have hno (text : String) : Dict.get? propertyKey members ≠ some (.str text) := by
      rw [ne_eq, ← bind_str?, hproperty]
      exact (Option.some_ne_none _).symm
    rw [readSelector, hproperty]
    refine reads_error (fun a ha => ?_) (.noProperty hno)
    cases ha with
    | property htext => exact hno _ htext
    | objects htext => exact hno _ htext
  | some text =>
    have htext := bind_str?.mp hproperty
    have hsame {text' : String} (htext' : Dict.get? propertyKey members = some (.str text')) :
        text' = text := Value.str.inj (Option.some.inj (htext'.symm.trans htext))
    rw [readSelector, hproperty]
    cases hfields : Dict.get? membersKey members with
    | none =>
      refine reads_ok fun a => ⟨fun ha => ?_, ?_⟩
      · cases ha with
        | property htext' => rw [hsame htext']
        | objects _ hfields' => rw [hfields] at hfields'; cases hfields'
      · rintro rfl
        exact .property htext hfields
    | some fields =>
      refine (reads_members name fields).bind_pure.congr (fun a => ⟨?_, fun ha => ?_⟩)
        fun e he => .members hfields he
      · rintro ⟨paths, hpaths, rfl⟩
        exact .objects htext hfields hpaths
      · cases ha with
        | property _ hfields' => rw [hfields] at hfields'; cases hfields'
        | objects htext' hfields' hpaths =>
          rw [hsame htext']
          rw [hfields, Option.some.injEq] at hfields'
          exact ⟨_, hfields' ▸ hpaths, rfl⟩

theorem reads_selector (name : String) (v : Value) :
    (readSelector name v).Reads (SelectorFrom v) (SelectorFails name v) := by
  cases v with
  | str text => exact reads_ok fun _ => ⟨by rintro ⟨⟩; rfl, by rintro rfl; exact .scalar⟩
  | arr items => exact reads_selector_arr name items
  | obj members => exact reads_selector_obj name members
  | _ =>
    exact reads_error (by rintro _ ⟨⟩)
      (.other (by rintro _ ⟨⟩) (by rintro _ ⟨⟩) (by rintro _ ⟨⟩))

/-! ## Aggregators -/

theorem reads_aggregatorName (name : String) :
    (Aggregator.ofName name).Reads (fun a => a.name = name)
      (fun e => (∀ a : Aggregator, a.name ≠ name) ∧ e = .unknownAggregator name) := by
  constructor
  · intro a
    constructor
    · intro h
      unfold Aggregator.ofName at h
      split at h
      · next a' ha' =>
        rw [← Except.ok.inj h]
        simpa using List.find?_some ha'
      · cases h
    · rintro rfl
      exact Aggregator.ofName_name a
  · intro e h
    refine ⟨?_, ?_⟩
    · rintro a rfl
      rw [Aggregator.ofName_name] at h
      cases h
    · unfold Aggregator.ofName at h
      split at h
      · cases h
      · exact (Except.error.inj h).symm

/-- Whether a key names an aggregator in short. -/
def IsShorthand (key : String) : Prop :=
  isDollarKey key = true ∧ key ≠ membersKey ∧ key ≠ propertyKey

theorem shorthand?_eq_none : shorthand? members = none ↔ ∀ m ∈ members, ¬IsShorthand m.1 := by
  rw [shorthand?, List.find?_eq_none]
  simp only [Bool.and_eq_true, bne_iff_ne, IsShorthand, and_assoc]

theorem shorthand?_eq_some {key : String} {target : Value} :
    shorthand? members = some (key, target) ↔ IsShorthand key ∧
      ∃ before after, members = before ++ (key, target) :: after ∧
        ∀ m ∈ before, ¬IsShorthand m.1 := by
  rw [shorthand?, List.find?_eq_some_iff_append]
  simp only [Bool.and_eq_true, bne_iff_ne, IsShorthand, and_assoc, Bool.not_eq_true',
    ← Bool.not_eq_true]

/-- The aggregator that an aggregated field names, and its path: in full, or by the first key that
names an aggregator in short. -/
inductive Names (members : Dict Value) : String → Option String → Prop
  | full {text : String} : Dict.get? aggregatorKey members = some (.str text) →
    Names members text ((Dict.get? propertyKey members).bind Value.str?)
  | short {before after : Dict Value} {key : String} {target : Value} :
    Dict.get? aggregatorKey members = none → IsShorthand key →
      members = before ++ (key, target) :: after → (∀ m ∈ before, ¬IsShorthand m.1) →
      Names members (String.ofList (key.toList.drop 1)) target.str?

theorem Names.cases {n : String} {path : Option String} (h : Names members n path) :
    (∃ text, Dict.get? aggregatorKey members = some (.str text)) ∨
      Dict.get? aggregatorKey members = none ∧ ∃ m ∈ members, IsShorthand m.1 := by
  cases h with
  | full h => exact .inl ⟨_, h⟩
  | @short before after key target h hkey hmembers =>
    have hm : (key, target) ∈ members := by
      rw [hmembers]
      exact List.mem_append_right _ List.mem_cons_self
    exact .inr ⟨h, (key, target), hm, hkey⟩

theorem names_iff_full {text n : String} {path : Option String}
    (h : Dict.get? aggregatorKey members = some (.str text)) :
    Names members n path ↔ text = n ∧ (Dict.get? propertyKey members).bind Value.str? = path := by
  constructor
  · intro hn
    cases hn with
    | full h' =>
      rw [h, Option.some.injEq, Value.str.injEq] at h'
      exact ⟨h', rfl⟩
    | short h' =>
      rw [h] at h'
      cases h'
  · rintro ⟨rfl, rfl⟩
    exact .full h

theorem names_iff_short {key n : String} {target : Value} {path : Option String}
    (h : Dict.get? aggregatorKey members = none)
    (hfirst : shorthand? members = some (key, target)) :
    Names members n path ↔ String.ofList (key.toList.drop 1) = n ∧ target.str? = path := by
  constructor
  · intro hn
    cases hn with
    | full h' =>
      rw [h] at h'
      cases h'
    | short _ hkey hmembers hbefore =>
      have hfirst' := shorthand?_eq_some.mpr ⟨hkey, _, _, hmembers, hbefore⟩
      obtain ⟨rfl, rfl⟩ := Prod.mk.inj (Option.some.inj (hfirst.symm.trans hfirst'))
      exact ⟨rfl, rfl⟩
  · rintro ⟨rfl, rfl⟩
    obtain ⟨hkey, before, after, hmembers, hbefore⟩ := shorthand?_eq_some.mp hfirst
    exact .short h hkey hmembers hbefore

/-- Why the aggregator of an aggregated field is refused. -/
inductive AggregatorFails (name : String) (members : Dict Value) : Error → Prop
  | notText {v : Value} : Dict.get? aggregatorKey members = some v → (∀ text, v ≠ .str text) →
    AggregatorFails name members (.invalidQuery (.aggregatorNotText name))
  | missing : Dict.get? aggregatorKey members = none → (∀ m ∈ members, ¬IsShorthand m.1) →
    AggregatorFails name members (.invalidQuery (.noAggregator name))
  | unknown {n : String} {path : Option String} : Names members n path →
    (∀ a : Aggregator, a.name ≠ n) → AggregatorFails name members (.unknownAggregator n)

theorem reads_aggregator (name : String) (members : Dict Value) :
    (readAggregator name members).Reads (fun a => Names members a.1.name a.2)
      (AggregatorFails name members) := by
  have hnamed {n : String} {path : Option String}
      (h : ∀ n' path', Names members n' path' ↔ n = n' ∧ path = path') :
      Reads (do return (← Aggregator.ofName n, path)) (fun a => Names members a.1.name a.2)
        (AggregatorFails name members) := by
    refine (reads_aggregatorName n).bind_pure.congr (fun a => ?_) ?_
    · rw [h]
      constructor
      · rintro ⟨a, rfl, rfl⟩
        exact ⟨rfl, rfl⟩
      · rintro ⟨rfl, rfl⟩
        exact ⟨a.1, rfl, rfl⟩
    · rintro e ⟨hunknown, rfl⟩
      exact .unknown ((h n path).mpr ⟨rfl, rfl⟩) hunknown
  unfold readAggregator
  cases hkey : Dict.get? aggregatorKey members with
  | none =>
    cases hfirst : shorthand? members with
    | none =>
      have hno := shorthand?_eq_none.mp hfirst
      refine reads_error (fun a ha => ?_) (.missing hkey hno)
      rcases ha.cases with ⟨text, htext⟩ | ⟨-, m, hm, hshort⟩
      · rw [hkey] at htext
        cases htext
      · exact hno m hm hshort
    | some m => exact hnamed fun n path => names_iff_short hkey hfirst
  | some v =>
    cases v with
    | str text => exact hnamed fun n path => names_iff_full hkey
    | _ =>
      refine reads_error (fun a ha => ?_) (.notText hkey fun _ => nofun)
      rcases ha.cases with ⟨text, htext⟩ | ⟨hnone, -⟩ <;> simp_all

/-! ## Aggregated fields -/

/-- The members of the objects of an aggregated field, none if it does not give any. -/
def MembersOf (members : Dict Value) (paths : Dict Path) : Prop :=
  match Dict.get? membersKey members with
  | none => paths = []
  | some fields => EntriesFrom PathFrom fields paths

/-- What is read of an aggregated field. -/
structure AggregationOf (object : Dict Value) (a : Aggregation) : Prop where
  named : ∃ path, Names object a.aggregator.name path ∧ a.property = path.map .ofText
  members : MembersOf object a.members
  property : a.aggregator ≠ .count → a.property ≠ none
  objects : a.aggregator = .object → a.members ≠ []
  /-- Anything but `true` counts as `false`. -/
  distinct : a.distinct = true ↔ Dict.get? "distinct" object = some (.bool true)

/-- What is read of the value of an aggregated field. -/
def AggregationFrom (v : Value) (a : Aggregation) : Prop :=
  ∃ members, v = .obj members ∧ AggregationOf members a

/-- Why the value of an aggregated field is refused. -/
inductive AggregationFails (name : String) : Value → Error → Prop
  | notObject {v : Value} : (∀ members, v ≠ .obj members) →
    AggregationFails name v (.invalidQuery (.objectExpected name))
  | aggregator {members : Dict Value} {e : Error} : AggregatorFails name members e →
    AggregationFails name (.obj members) e
  | members {members : Dict Value} {fields : Value} {e : Error} :
    Dict.get? membersKey members = some fields → MembersFail name fields e →
      AggregationFails name (.obj members) e
  | noProperty {members : Dict Value} {a : Aggregator} : Names members a.name none → a ≠ .count →
    AggregationFails name (.obj members) (.invalidQuery (.aggregateWithoutProperty name))
  | noMembers {members : Dict Value} {path : Option String} :
    Names members Aggregator.object.name path → MembersOf members [] →
      AggregationFails name (.obj members) (.invalidQuery (.aggregateWithoutFields name))

/-- Reads the members of an aggregated field. -/
def readMembersOf (name : String) (members : Dict Value) : Outcome (Dict Path) :=
  match Dict.get? membersKey members with
  | some fields => readMembers name fields
  | none => .ok []

theorem reads_membersOf (name : String) (members : Dict Value) :
    (readMembersOf name members).Reads (MembersOf members)
      (fun e => ∃ fields, Dict.get? membersKey members = some fields ∧
        MembersFail name fields e) := by
  unfold readMembersOf MembersOf
  cases hfields : Dict.get? membersKey members with
  | none => exact reads_ok fun _ => eq_comm
  | some fields =>
    exact (reads_members name fields).congr (fun _ => Iff.rfl) fun e he => ⟨_, rfl, he⟩

theorem readDistinct_iff :
    ((Dict.get? "distinct" members).bind Value.bool?).getD false = true ↔
      Dict.get? "distinct" members = some (.bool true) := by
  cases hget : Dict.get? "distinct" members with
  | none => simp
  | some v => cases v <;> simp [Value.bool?]

/-- The aggregated field of an aggregator, a path and members, which is refused if it needs more
than there is. -/
def checkedAggregation (name : String) (object : Dict Value) (aggregator : Aggregator)
    (path : Option String) (paths : Dict Path) : Outcome Aggregation :=
  if aggregator ≠ .count ∧ path = none then fail (.aggregateWithoutProperty name)
  else if aggregator = .object ∧ paths.isEmpty then fail (.aggregateWithoutFields name)
  else return ⟨aggregator, path.map Path.ofText, paths,
    ((Dict.get? "distinct" object).bind Value.bool?).getD false⟩

theorem readAggregation_eq (name : String) (v : Value) :
    readAggregation name v = (do
      let object ← objectNamed name v
      let named ← readAggregator name object
      let paths ← readMembersOf name object
      checkedAggregation name object named.1 named.2 paths) := by
  unfold readAggregation
  refine congrArg (_ >>= ·) (funext fun object => ?_)
  refine congrArg (_ >>= ·) (funext fun ⟨aggregator, path⟩ => ?_)
  unfold readMembersOf
  cases Dict.get? membersKey object <;> rfl

theorem reads_checkedAggregation {aggregator : Aggregator} {path : Option String}
    {paths : Dict Path} (name : String) (hnamed : Names members aggregator.name path)
    (hpaths : MembersOf members paths) :
    (checkedAggregation name members aggregator path paths).Reads
      (fun a => AggregationOf members a ∧ a.aggregator = aggregator ∧ a.members = paths)
      (AggregationFails name (.obj members)) := by
  have hproperty {a : Aggregation} (ha : AggregationOf members a)
      (he : a.aggregator = aggregator) : a.property = path.map .ofText := by
    obtain ⟨path', hpath', hproperty⟩ := ha.named
    rw [he] at hpath'
    have hsame := (reads_aggregator name members).unique (a := (aggregator, path'))
      (b := (aggregator, path)) hpath' hnamed
    rw [hproperty, (Prod.mk.inj hsame).2]
  unfold checkedAggregation
  split
  · next hnone =>
    obtain ⟨hcount, rfl⟩ := hnone
    refine reads_error ?_ (.noProperty hnamed hcount)
    rintro a ⟨ha, he, -⟩
    exact ha.property (he ▸ hcount) (hproperty ha he)
  next hsome =>
  split
  · next hempty =>
    obtain ⟨rfl, hnil⟩ := hempty
    obtain rfl := List.isEmpty_iff.mp hnil
    refine reads_error ?_ (.noMembers hnamed hpaths)
    rintro a ⟨ha, he, hmembers⟩
    exact ha.objects he hmembers
  next hmembers =>
  refine reads_ok fun a => ⟨?_, ?_⟩
  · rintro ⟨ha, he, hpaths'⟩
    have hdistinct := Bool.eq_iff_iff.mpr (readDistinct_iff.trans ha.distinct.symm)
    rw [hdistinct, ← hproperty ha he, ← he, ← hpaths']
  · rintro rfl
    exact ⟨⟨⟨path, hnamed, rfl⟩, hpaths, by simpa using hsome, by simpa using hmembers,
      readDistinct_iff⟩, rfl, rfl⟩

theorem reads_aggregation (name : String) (v : Value) :
    (readAggregation name v).Reads (AggregationFrom v) (AggregationFails name v) := by
  rw [readAggregation_eq]
  refine ((reads_objectNamed name v).bind fun members _ =>
    (reads_aggregator name members).bind fun named hnamed =>
      (reads_membersOf name members).bind fun paths hpaths =>
        reads_checkedAggregation name hnamed hpaths).congr (fun a => ?_) ?_
  · constructor
    · rintro ⟨members, hv, named, -, paths, -, ha, -⟩
      exact ⟨members, hv, ha⟩
    · rintro ⟨members, hv, ha⟩
      obtain ⟨path, hpath, -⟩ := ha.named
      exact ⟨members, hv, (a.aggregator, path), hpath, a.members, ha.members, ha, rfl, rfl⟩
  · rintro e (⟨hv, rfl⟩ | ⟨members, rfl, he | ⟨named, -, ⟨fields, hfields, he⟩ | ⟨paths, -, he⟩⟩⟩)
    · exact .notObject hv
    · exact .aggregator he
    · exact .members hfields he
    · exact he

end Spec

end DocGraph
