import FormRules.Condition.Eval
import FormRules.Proofs.Results
import FormRules.Proofs.Store.Table
import Mathlib.Data.List.Forall2
import Mathlib.Logic.Relation

/-!
# Composites

A constructor of a composite looks at its own parts only. Since each of these has been through a constructor, too, no
inquiry stands inside of a composite, however deep, and deciding one part by part asks none (`InBand`).
-/

namespace FormRules

/-! ## Reporting no inquiry -/

def Notice.isOutOfBand : Notice → Bool
  | .outOfBand _ => true
  | _ => false

/-- The inquiries that somebody wanted to have decided at once. -/
def Journal.outOfBand (j : Journal) : List Notice := j.notices.filter Notice.isOutOfBand

/-- The computation wants no inquiry to be decided at once. -/
def Reporting.InBand {α : Type} (x : Reporting α) : Prop := ∀ j, (x.run j).2.outOfBand = j.outOfBand

namespace Reporting.InBand
variable {α β : Type} {x : Reporting α} {k : α → Reporting β}

theorem pure (a : α) : InBand (Pure.pure a) := fun _ => rfl

theorem bind (hx : InBand x) (hk : ∀ a, InBand (k a)) : InBand (x >>= k) := fun j =>
  (hk (x.run j).1 (x.run j).2).trans (hx j)

theorem report {n : Notice} (h : n.isOutOfBand = false) : InBand (Journal.report n) := by
  intro j
  show (j.notices ++ [n]).filter _ = j.notices.filter _
  rw [List.filter_append, List.filter_cons_of_neg (by simp [h]), List.filter_nil, List.append_nil]

theorem asBoolean (v : Value) (site : String) : InBand (v.asBoolean site) := by
  have addOnce (j : Journal) : (j.addOnce site).outOfBand = j.outOfBand := by
    unfold Journal.addOnce
    split
    · exact report (n := .nonBoolean false) rfl j
    · split
      · rfl
      · exact report (n := .nonBoolean true) rfl j
  unfold Value.asBoolean
  split
  · exact pure _
  · exact fun j => addOnce j

theorem settled (o : Outcome Bool) : InBand (FormRules.settled o) := by
  cases o with
  | ok b => exact pure b
  | error e => exact (report rfl).bind fun _ => pure false

end Reporting.InBand

open Reporting (InBand)

theorem CustomFunctions.ask_inBand (fs : CustomFunctions) (name : String) (c : Context) : InBand (fs.ask name c) := by
  unfold ask
  split
  · exact (InBand.report rfl).bind fun _ => .pure false
  · split
    · exact .pure _
    · exact (InBand.report rfl).bind fun _ => .pure false

mutual

theorem Test.holds_inBand (fs : CustomFunctions) (c : Context) (t : Test) : InBand (t.holds fs c) := by
  cases t with
  | literal b => exact .pure b
  | fieldValue path op v => exact .settled _
  | formValue op v => exact .settled _
  | expression code =>
    rw [Test.holds]
    split
    · exact .asBoolean _ _
    · exact (InBand.report rfl).bind fun _ => .pure false
  | custom name => exact CustomFunctions.ask_inBand fs name c
  | all ts => exact Test.allHold_inBand fs c ts
  | any ts => exact Test.anyHolds_inBand fs c ts

theorem Test.allHold_inBand (fs : CustomFunctions) (c : Context) (ts : List Test) : InBand (Test.allHold fs c ts) := by
  cases ts with
  | nil => exact .pure true
  | cons t ts =>
    rw [Test.allHold]
    refine (Test.holds_inBand fs c t).bind fun b => ?_
    split
    · exact Test.allHold_inBand fs c ts
    · exact .pure false

theorem Test.anyHolds_inBand (fs : CustomFunctions) (c : Context) (ts : List Test) : InBand (Test.anyHolds fs c ts) := by
  cases ts with
  | nil => exact .pure false
  | cons t ts =>
    rw [Test.anyHolds]
    refine (Test.holds_inBand fs c t).bind fun b => ?_
    split
    · exact .pure true
    · exact Test.anyHolds_inBand fs c ts

end

/-! ## Putting composites together -/

namespace Condition
variable {cs : List Condition} {kind : String} {ts : List Test} {t : Test} {c : Condition}

theorem of_toTest (h : c.toTest kind = .ok t) : c = .test t := by
  cases c with
  | test s => cases h; rfl
  | inquiry i => cases h

theorem of_mapM_toTest (h : cs.mapM (toTest kind) = .ok ts) : cs = ts.map .test := by
  induction cs generalizing ts with
  | nil =>
    cases h
    rfl
  | cons c cs ih =>
    rw [List.mapM_cons] at h
    obtain ⟨t, ht, h⟩ := of_bind_ok h
    obtain ⟨ts', hts, h⟩ := of_bind_ok h
    cases h
    rw [of_toTest ht, ih hts, List.map_cons]

end Condition

/-- A condition as it is put together: one that is given, or a composite of what is put together first. -/
inductive Assembly
  | given (c : Condition)
  | all (parts : List Assembly)
  | any (parts : List Assembly)

namespace Assembly
variable {a b : Assembly} {as : List Assembly} {c : Condition} {cs : List Condition} {ts : List Test}

def parts : Assembly → List Assembly
  | given _ => []
  | all as | any as => as

/-- What stands strictly inside, at any depth. -/
def Inside : Assembly → Assembly → Prop := Relation.TransGen fun a b => a ∈ b.parts

mutual

/-- The condition that comes out; each constructor wants tests for its parts. -/
def build : Assembly → Outcome Condition
  | given c => .ok c
  | all as => do return .test (.all (← (← buildEach as).mapM (Condition.toTest "and")))
  | any as => do return .test (.any (← (← buildEach as).mapM (Condition.toTest "or")))

def buildEach : List Assembly → Outcome (List Condition)
  | [] => .ok []
  | a :: as => do
    let c ← build a
    return c :: (← buildEach as)

end

mutual

/-- Deciding part by part, whatever the parts are. -/
def holds (fs : CustomFunctions) (context : Context) : Assembly → Reporting Bool
  | given c => c.holds fs context
  | all as => allHold fs context as
  | any as => anyHolds fs context as

def allHold (fs : CustomFunctions) (context : Context) : List Assembly → Reporting Bool
  | [] => return true
  | a :: as => do
    let b ← holds fs context a
    if b then allHold fs context as else return false

def anyHolds (fs : CustomFunctions) (context : Context) : List Assembly → Reporting Bool
  | [] => return false
  | a :: as => do
    let b ← holds fs context a
    if b then return true else anyHolds fs context as

end

theorem of_buildEach (h : buildEach as = .ok cs) : List.Forall₂ (fun a c => a.build = .ok c) as cs := by
  induction as generalizing cs with
  | nil =>
    cases h
    exact .nil
  | cons a as ih =>
    rw [buildEach] at h
    obtain ⟨c, hc, h⟩ := of_bind_ok h
    obtain ⟨cs', hcs, h⟩ := of_bind_ok h
    cases h
    exact .cons hc (ih hcs)

theorem tests_of_build {kind : String} (hcs : buildEach as = .ok cs) (hts : cs.mapM (Condition.toTest kind) = .ok ts) :
    List.Forall₂ (fun a t => a.build = .ok (.test t)) as ts := by
  obtain rfl := Condition.of_mapM_toTest hts
  exact (List.forall₂_map_right_iff (R := fun (a : Assembly) c => a.build = .ok c)).mp (of_buildEach hcs)

theorem of_build_all (h : (all as).build = .ok c) :
    ∃ ts, c = .test (.all ts) ∧ List.Forall₂ (fun a t => a.build = .ok (.test t)) as ts := by
  rw [build] at h
  obtain ⟨cs, hcs, h⟩ := of_bind_ok h
  obtain ⟨ts, hts, h⟩ := of_bind_ok h
  cases h
  exact ⟨ts, rfl, tests_of_build hcs hts⟩

theorem of_build_any (h : (any as).build = .ok c) :
    ∃ ts, c = .test (.any ts) ∧ List.Forall₂ (fun a t => a.build = .ok (.test t)) as ts := by
  rw [build] at h
  obtain ⟨cs, hcs, h⟩ := of_bind_ok h
  obtain ⟨ts, hts, h⟩ := of_bind_ok h
  cases h
  exact ⟨ts, rfl, tests_of_build hcs hts⟩

theorem test_of_part (h : a.build = .ok c) (hb : b ∈ a.parts) : ∃ t, b.build = .ok (.test t) := by
  have tests {as : List Assembly} {ts : List Test} (hts : List.Forall₂ (fun a t => a.build = .ok (.test t)) as ts)
      (hb : b ∈ as) : ∃ t, b.build = .ok (.test t) := by
    induction hts with
    | nil => cases hb
    | cons ht _ ih =>
      rcases List.mem_cons.mp hb with rfl | hb
      · exact ⟨_, ht⟩
      · exact ih hb
  cases a with
  | given c => cases hb
  | all as =>
    obtain ⟨ts, -, hts⟩ := of_build_all h
    exact tests hts hb
  | any as =>
    obtain ⟨ts, -, hts⟩ := of_build_any h
    exact tests hts hb

/-- Whatever stands inside of what could be put together is a test. -/
theorem test_of_inside (h : a.build = .ok c) (hb : b.Inside a) : ∃ t, b.build = .ok (.test t) := by
  induction hb generalizing c with
  | single hb => exact test_of_part h hb
  | tail _ hm ih =>
    obtain ⟨t, ht⟩ := test_of_part h hm
    exact ih ht

/-! ## Deciding part by part -/

section
variable (fs : CustomFunctions) (context : Context)

mutual

/-- Deciding part by part comes to the same as deciding what is put together. -/
theorem holds_of_build {a : Assembly} {c : Condition} (h : a.build = .ok c) : a.holds fs context = c.holds fs context := by
  cases a with
  | given c =>
    cases h
    rfl
  | all as =>
    obtain ⟨ts, rfl, hts⟩ := of_build_all h
    exact allHold_of_build hts
  | any as =>
    obtain ⟨ts, rfl, hts⟩ := of_build_any h
    exact anyHolds_of_build hts

theorem allHold_of_build {as : List Assembly} {ts : List Test}
    (h : List.Forall₂ (fun a t => a.build = .ok (.test t)) as ts) :
    allHold fs context as = Test.allHold fs context ts := by
  cases as with
  | nil =>
    cases h
    rfl
  | cons a as =>
    cases h with
    | cons ht hts =>
      rw [allHold, holds_of_build ht, Condition.holds, allHold_of_build hts, Test.allHold]

theorem anyHolds_of_build {as : List Assembly} {ts : List Test}
    (h : List.Forall₂ (fun a t => a.build = .ok (.test t)) as ts) :
    anyHolds fs context as = Test.anyHolds fs context ts := by
  cases as with
  | nil =>
    cases h
    rfl
  | cons a as =>
    cases h with
    | cons ht hts =>
      rw [anyHolds, holds_of_build ht, Condition.holds, anyHolds_of_build hts, Test.anyHolds]

end

end

end Assembly

/-! ## Descriptions of composites -/

namespace Condition
variable {v w : Value} {c : Condition} {es : Entries} {items : List Value} {cs : List Condition} {kind : String}

/-- The descriptions that a description of a composite is made of. -/
def describedParts : Value → List Value
  | .map es =>
    match ConditionType.ofValue (Value.field es "type") with
    | .ok .all | .ok .any =>
      match Value.field es "conditions" with
      | .seq _ items => items
      | _ => []
    | _ => []
  | _ => []

/-- What is described strictly inside, at any depth. -/
def DescribedInside : Value → Value → Prop := Relation.TransGen fun v w => v ∈ describedParts w

theorem parseParts_eq : parseParts kind es = parseItems kind (Value.field es "conditions") := by
  induction es with
  | nil => rfl
  | cons e es ih =>
    obtain ⟨k, v⟩ := e
    rw [parseParts]
    split
    · next hk =>
      subst hk
      rfl
    · next hk =>
      rw [ih, Value.field, Value.field, Value.field?, Value.field?, Table.get?_cons_of_ne hk]

theorem parse_of_mem_parseList (h : parseList items = .ok cs) (hw : w ∈ items) : ∃ c ∈ cs, parse w = .ok c := by
  induction items generalizing cs with
  | nil => cases hw
  | cons v items ih =>
    rw [parseList] at h
    obtain ⟨c, hc, h⟩ := of_bind_ok h
    obtain ⟨cs', hcs, h⟩ := of_bind_ok h
    cases h
    rcases List.mem_cons.mp hw with rfl | hw
    · exact ⟨c, List.mem_cons_self, hc⟩
    · obtain ⟨c', hmem, hc'⟩ := ih hcs hw
      exact ⟨c', List.mem_cons_of_mem _ hmem, hc'⟩

theorem test_of_parseParts {ts : List Test} {seqKind : SeqKind} (hcs : parseParts kind es = .ok cs)
    (hts : cs.mapM (toTest kind) = .ok ts)
    (hitems : Value.field es "conditions" = .seq seqKind items) (hw : w ∈ items) : ∃ t, parse w = .ok (.test t) := by
  obtain rfl := of_mapM_toTest hts
  rw [parseParts_eq, hitems, parseItems] at hcs
  obtain ⟨c, hc, hparse⟩ := parse_of_mem_parseList hcs hw
  obtain ⟨t, -, rfl⟩ := List.mem_map.mp hc
  exact ⟨t, hparse⟩

theorem test_of_describedPart (h : parse v = .ok c) (hw : w ∈ describedParts v) : ∃ t, parse w = .ok (.test t) := by
  unfold describedParts at hw
  split at hw
  · next es =>
    rw [parse] at h
    obtain ⟨type, htype, h⟩ := of_bind_ok h
    rw [htype] at hw
    split at hw
    · next he =>
      cases he
      obtain ⟨cs, hcs, h⟩ := of_bind_ok h
      obtain ⟨ts, hts, -⟩ := of_bind_ok h
      split at hw
      · next hitems => exact test_of_parseParts hcs hts hitems hw
      · cases hw
    · next he =>
      cases he
      obtain ⟨cs, hcs, h⟩ := of_bind_ok h
      obtain ⟨ts, hts, -⟩ := of_bind_ok h
      split at hw
      · next hitems => exact test_of_parseParts hcs hts hitems hw
      · cases hw
    · cases hw
  · cases hw

/-- Whatever is described inside of a description that is accepted is a test. -/
theorem test_of_describedInside (h : parse v = .ok c) (hw : DescribedInside w v) : ∃ t, parse w = .ok (.test t) := by
  induction hw generalizing c with
  | single hw => exact test_of_describedPart h hw
  | tail _ hm ih =>
    obtain ⟨t, ht⟩ := test_of_describedPart h hm
    exact ih ht

end Condition
end FormRules
