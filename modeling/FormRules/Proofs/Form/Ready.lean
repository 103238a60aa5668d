import FormRules.Proofs.Form.Frame
import FormRules.Proofs.Schema.Reach
import FormRules.Proofs.Validation.Guards

/-!
# No validator is passed over

`Form.Ready`: every validator that is attached to a form compiles, and so does every one within reach of an application.
Attaching sees to that, so that forms stay ready as long as no schema is registered behind the back of an application.
Whatever the rules of a ready form are for a value, none of their validators is passed over.
-/

namespace FormRules

namespace Compiled
variable {fs : Functions} {c d : Compiled} {v : Validator}

/-- What is found under a key has been compiled from a validator with that key. -/
def Sound (fs : Functions) (c : Compiled) : Prop :=
  ∀ key w, Table.get? c.validators key = some w → w.config.key = key ∧ w.config.compile fs = .ok w

theorem Sound.grows (h : c.Sound fs) (hg : c.Grows fs d) : d.Sound fs := by
  obtain ⟨kind, key, f, rfl, -⟩ | ⟨v, w, hv, -, rfl⟩ := hg.intern_cases
  · rwa [Sound, validators_intern]
  · intro key w hw
    obtain ⟨rfl, rfl⟩ | hw := Table.of_get?_put hw
    · rw [Validator.config_of_compile hv]
      exact ⟨rfl, hv⟩
    · exact h key w hw

theorem Sound.compiles (h : c.Sound fs) (hv : c.Has v) : v.Compiles fs := by
  obtain ⟨w, hw⟩ := Option.isSome_iff_exists.mp hv
  obtain ⟨hkey, hcompile⟩ := h v.key w hw
  exact Validator.Compiles.of_key ⟨w, hcompile⟩ hkey

end Compiled

namespace Form
variable {f g : Form} {root : Value}

/-- Every validator that is attached compiles, directly or within reach of an application. -/
structure Ready (f : Form) : Prop where
  sound : f.compiled.Sound f.functions
  direct : ∀ b ∈ f.rulebook.validators, b.rule.Compiles f.functions
  applied : ∀ p ∈ f.rulebook.applications, ∀ v ∈ f.rulebook.validatorsWithin p.2, v.Compiles f.functions

/-- The forms that a fresh one can become if no schema is registered once one has been applied. -/
inductive Founded : Form → Prop
  | fresh {f : Form} (h : f.IsFresh) : Founded f
  | next {f : Form} (h : Founded f) {o : Operation} (ho : ∀ s, o ≠ .registerSchema s) : Founded (f.next o)
  | registered {f : Form} (h : Founded f) (hf : f.rulebook.applications = []) (s : Schema) :
      Founded (f.next (.registerSchema s))

theorem sound_of_move (h : f.compiled.Sound f.functions) (hm : Move f g) : g.compiled.Sound g.functions := by
  rw [(of_lasting_rules hm.lasting).1]
  obtain hsame | hgrows := hm.compiled_eq_or_grows
  · rw [hsame]; exact h
  · exact h.grows hgrows

/-- What has been compiled has been compiled from validators with its keys, whatever has happened. -/
theorem Reachable.sound (h : f.Reachable) : f.compiled.Sound f.functions := by
  refine Reachable.induct (P := fun f => f.compiled.Sound f.functions) (fun f hf => ?_) (fun f g ht h => ?_)
    (fun _ _ h => h) h
  · rw [hf.compiled]
    exact fun _ _ hw => nomatch hw
  · cases ht with
    | move hm => exact sound_of_move h hm
    | _ => exact h

namespace Ready

theorem of_isFresh (h : f.IsFresh) : f.Ready where
  sound := by rw [h.compiled]; exact fun _ _ hw => nomatch hw
  direct := by rw [h.validators]; exact nofun
  applied := by rw [h.applications]; exact nofun

theorem move (h : f.Ready) (hm : Move f g) : g.Ready := by
  obtain ⟨hfunctions, hrulebook⟩ := of_lasting_rules hm.lasting
  refine ⟨sound_of_move h.sound hm, ?_, ?_⟩
  · rw [hfunctions, hrulebook]; exact h.direct
  · rw [hfunctions, hrulebook]; exact h.applied

theorem attached (h : f.Ready) {b : Rulebook} (hb : f.Attaches b) : Ready { f with rulebook := b } := by
  cases hb with
  | validator hv =>
    refine ⟨h.sound, fun b hb => ?_, h.applied⟩
    obtain hb | hb := List.mem_append.mp hb
    · exact h.direct b hb
    · obtain rfl := List.mem_singleton.mp hb
      exact h.sound.compiles hv
  | logic b => exact ⟨h.sound, h.direct, h.applied⟩
  | application hall =>
    refine ⟨h.sound, h.direct, fun p hp v hv => ?_⟩
    obtain hp | hp := List.mem_append.mp hp
    · exact h.applied p hp v hv
    · obtain rfl := List.mem_singleton.mp hp
      exact h.sound.compiles (hall v hv)

theorem turn (h : f.Ready) (ht : Turn f g) : g.Ready := by
  cases ht with
  | move hm => exact h.move hm
  | wrote v => exact ⟨h.sound, h.direct, h.applied⟩
  | adjusted => exact ⟨h.sound, h.direct, h.applied⟩
  | attached hb => exact h.attached hb
  | streamed s hs => exact ⟨h.sound, h.direct, h.applied⟩

theorem registered (h : f.Ready) (hf : f.rulebook.applications = []) (s : Schema) :
    (f.next (.registerSchema s)).Ready := by
  refine ⟨h.sound, h.direct, fun p hp => ?_⟩
  rw [show (f.next (.registerSchema s)).rulebook.applications = [] from hf] at hp
  cases hp

theorem of_founded (h : f.Founded) : f.Ready := by
  induction h with
  | fresh h => exact of_isFresh h
  | @next f _ o ho ih => exact (Live.perform_turns o ho f).keeps (fun _ _ ht h => h.turn ht) ih
  | registered _ hf s ih => exact ih.registered hf s

end Ready
end Form

/-! ## The rules for a value -/

theorem Rulebook.of_rules {b : Rulebook} {root : Value} {j : Journal} {r : Rules}
    (h : ((b.rules root).run.run j).1 = .ok r) :
    ∃ c, ((b.schemas.collect root b.applications).run.run j).1 = .ok c ∧
      r = (Rules.append ⟨b.validators, b.logic⟩ c).enforced := by
  unfold rules at h
  rw [Checking.run_bind] at h
  cases hc : ((b.schemas.collect root b.applications).run.run j).1 with
  | error e => rw [hc] at h; cases h
  | ok c =>
    rw [hc] at h
    cases h
    exact ⟨c, rfl, rfl⟩

namespace Live
variable {α : Type} {f : Form} {root : Value}

theorem run_rules (root : Value) (f : Form) : (rules root).run.run f =
    (((f.rulebook.rules root).run.run f.journal).1,
      { f with journal := ((f.rulebook.rules root).run.run f.journal).2 }) := rfl

/-- Whatever the value, every validator of the rules of a ready form compiles. -/
theorem compiles_of_rules (h : f.Ready) {r : Rules} (hr : result (rules root) f = .ok r) :
    ∀ b ∈ r.validators, b.rule.Compiles f.functions := by
  rw [result, run_rules] at hr
  obtain ⟨c, hc, rfl⟩ := Rulebook.of_rules hr
  intro b hb
  obtain hb | hb := List.mem_append.mp hb
  · obtain hb | hb := List.mem_append.mp hb
    · exact h.direct b hb
    · obtain ⟨p, hp, s, hs, -, v, hv, gs, hrule⟩ := (SchemaRegistry.of_collect hc).1 b hb
      rw [hrule]
      exact (h.applied p hp v (List.mem_flatMap.mpr ⟨s, hs, hv⟩)).withGuards _
  · obtain ⟨l, -, rfl⟩ := List.mem_map.mp hb
    exact l.rule.compiles_enforcer _

/-- Members are kept as they are told to be, up to the first fault, and an invariant learns of one after the other. -/
theorem filterM_eq {P : List α → Form → Prop} {p : α → Live Bool} {q : α → Outcome Bool} {l : List α}
    (hp : ∀ a ∈ l, ∀ done f, P done f → result (p a) f = q a ∧ ∀ x, q a = .ok x → P (a :: done) (after (p a) f))
    (hf : P [] f) :
    result (l.filterM p) f = l.filterM q ∧ ∀ as, l.filterM q = .ok as → P l.reverse (after (l.filterM p) f) := by
  -- The members that have passed so far are accumulated in reverse.
  have all (l done acc : List α)
      (hp : ∀ a ∈ l, ∀ done f, P done f → result (p a) f = q a ∧ ∀ x, q a = .ok x → P (a :: done) (after (p a) f))
      (f : Form) (hf : P done f) : result (l.filterAuxM p acc) f = l.filterAuxM q acc ∧
        ∀ as, l.filterAuxM q acc = .ok as → P (l.reverse ++ done) (after (l.filterAuxM p acc) f) := by
    induction l generalizing done acc f with
    | nil => exact ⟨rfl, fun _ _ => hf⟩
    | cons a l ih =>
      obtain ⟨ha, hl⟩ := List.forall_mem_cons.mp hp
      obtain ⟨hresult, hafter⟩ := ha done f hf
      cases hq : q a with
      | error e =>
        rw [hq] at hresult
        rw [List.filterAuxM, List.filterAuxM, result_bind_error hresult, hq]
        exact ⟨rfl, fun as h => by cases h⟩
      | ok x =>
        rw [hq] at hresult
        obtain ⟨hrest, hkept⟩ := ih (a :: done) (cond x (a :: acc) acc) hl _ (hafter x hq)
        rw [List.filterAuxM, List.filterAuxM, result_bind_ok hresult, after_bind_ok hresult, hrest, hq,
          List.reverse_cons, List.append_assoc]
        exact ⟨rfl, hkept⟩
  obtain ⟨hresult, hafter⟩ := all l [] [] hp f hf
  unfold List.filterM
  cases hq : l.filterAuxM q [] with
  | error e =>
    rw [hq] at hresult
    exact ⟨result_bind_error hresult, fun as h => by cases h⟩
  | ok as =>
    rw [hq] at hresult
    have hkept := hafter as hq
    rw [List.append_nil] at hkept
    rw [result_bind_ok hresult, after_bind_ok hresult]
    exact ⟨rfl, fun _ _ => hkept⟩

/-- Members are kept as they are told to be, and an invariant learns of one member after the other. -/
theorem filterM_spec {P : List α → Form → Prop} {p : α → Live Bool} {q : α → Bool} {l : List α}
    (hp : ∀ a ∈ l, ∀ done f, P done f → result (p a) f = .ok (q a) ∧ P (a :: done) (after (p a) f)) (hf : P [] f) :
    result (l.filterM p) f = .ok (l.filter q) ∧ P l.reverse (after (l.filterM p) f) := by
  obtain ⟨hresult, hafter⟩ := filterM_eq (q := fun a => .ok (q a))
    (fun a ha done f h => ⟨(hp a ha done f h).1, fun _ _ => (hp a ha done f h).2⟩) hf
  have hkept : l.filterM (fun a => (.ok (q a) : Outcome Bool)) = .ok (l.filter q) := filterM_ok fun _ _ => rfl
  exact ⟨hresult.trans hkept, hafter _ hkept⟩

/-- Members are answered as they are told to be, up to the first fault, and an invariant is kept. -/
theorem mapM_eq {β : Type} {P : Form → Prop} {p : α → Live β} {q : α → Outcome β} {l : List α}
    (hp : ∀ a ∈ l, ∀ f, P f → result (p a) f = q a ∧ ∀ b, q a = .ok b → P (after (p a) f)) (hf : P f) :
    result (l.mapM p) f = l.mapM q ∧ ∀ bs, l.mapM q = .ok bs → P (after (l.mapM p) f) := by
  induction l generalizing f with
  | nil => exact ⟨rfl, fun _ _ => hf⟩
  | cons a l ih =>
    obtain ⟨ha, hl⟩ := List.forall_mem_cons.mp hp
    obtain ⟨hresult, hafter⟩ := ha f hf
    rw [List.mapM_cons, List.mapM_cons]
    cases hq : q a with
    | error e =>
      rw [hq] at hresult
      exact ⟨result_bind_error hresult, nofun⟩
    | ok b =>
      rw [hq] at hresult
      obtain ⟨hrest, hkept⟩ := ih hl (hafter b hq)
      rw [result_bind_ok hresult, after_bind_ok hresult]
      cases hqs : l.mapM q with
      | error e =>
        rw [hqs] at hrest
        exact ⟨result_bind_error hrest, nofun⟩
      | ok bs =>
        rw [hqs] at hrest
        rw [result_bind_ok hrest, after_bind_ok hrest]
        exact ⟨rfl, fun _ _ => hkept bs hqs⟩

theorem isKnown_of_compiled {b : Bound Validator} {w : CompiledValidator}
    (h : result (compileValidator b.rule) f = .ok w) :
    result (isKnown b) f = .ok true ∧ after (isKnown b) f = after (compileValidator b.rule) f := by
  have hattempt := result_attempt (compileValidator b.rule) f
  rw [h] at hattempt
  unfold isKnown
  rw [result_bind_ok hattempt, after_bind_ok hattempt, after_attempt]
  exact ⟨rfl, rfl⟩

theorem isKnown_of_compiles {b : Bound Validator} (h : b.rule.Compiles f.functions) :
    result (isKnown b) f = .ok true ∧ ∃ d, after (isKnown b) f = { f with compiled := d } := by
  obtain ⟨w, hw⟩ := h
  obtain ⟨e, he, -⟩ | ⟨u, d, -, -, hresult, hafter⟩ := compileValidator_cases b.rule f
  · exact absurd (hw.symm.trans he) nofun
  · obtain ⟨hknown, hsame⟩ := isKnown_of_compiled hresult
    exact ⟨hknown, d, hsame.trans hafter⟩

/-- The validators of a ready form are those of its rules, all of them and in order. -/
theorem validators_of_ready (h : f.Ready) (root : Value) :
    result (validators root) f = (result (rules root) f).map (fun r => r.validators.map fun b => (b.path, b.rule)) ∧
      ∃ d, after (validators root) f = { after (rules root) f with compiled := d } := by
  unfold validators
  cases hr : result (rules root) f with
  | error e =>
    rw [result_bind_error hr, after_bind_error hr]
    exact ⟨rfl, _, rfl⟩
  | ok r =>
    have hknown : ∀ b ∈ r.validators, ∀ g : Form, (∃ d, g = { after (rules root) f with compiled := d }) →
        result (isKnown b) g = .ok true ∧ ∃ d, after (isKnown b) g = { after (rules root) f with compiled := d } := by
      -- Every form on the way is the one after the rules were collected, with more compiled.
      rintro b hb _ ⟨c, rfl⟩
      obtain ⟨hresult, d, hafter⟩ := isKnown_of_compiles (f := { after (rules root) f with compiled := c })
        (compiles_of_rules h hr b hb)
      exact ⟨hresult, d, hafter⟩
    obtain ⟨hresult, hafter⟩ := filterM_spec (fun b hb _ => hknown b hb) ⟨_, rfl⟩
    rw [List.filter_true] at hresult
    rw [result_bind_ok hr, after_bind_ok hr, result_bind_ok hresult, after_bind_ok hresult]
    exact ⟨rfl, hafter⟩

end Live

namespace Form
open Live

/-- If no schema is registered behind an application, then the validators of a form are all those of its rules, whatever
the value. What applications bring in comes from definitions within reach of one of them, which are those that it leads
to, also if schemas apply each other. -/
theorem validators_eq_rules :
    (∀ f : Form, f.Founded → ∀ root : Value,
      result (validators root) f = (result (rules root) f).map (fun r => r.validators.map fun b => (b.path, b.rule)) ∧
        (after (validators root) f).journal = (after (rules root) f).journal) ∧
    (∀ (registry : SchemaRegistry) (root : Value) (applications : List (String × SchemaApplication)) (j : Journal)
      (r : Rules), ((registry.collect root applications).run.run j).1 = .ok r →
      (∀ b ∈ r.validators, ∃ p ∈ applications, ∃ s ∈ registry.reachable p.2, b.schema = some s.name ∧
        ∃ v ∈ s.validators, ∃ gs, b.rule = { v with guards := gs ++ v.guards }) ∧
      ∀ b ∈ r.logic, ∃ p ∈ applications, ∃ s ∈ registry.reachable p.2, b.schema = some s.name ∧
        ∃ l ∈ s.logic, ∃ gs, b.rule = { l with guards := gs ++ l.guards }) ∧
    ∀ (registry : SchemaRegistry) (a : SchemaApplication),
      (∀ s, s ∈ registry.reachable a ↔ Within registry a.schema s) ∧
        ∀ fuel, registry.length ≤ fuel → (a.reach (registry.follow fuel) {}).schemas = registry.reachable a := by
  refine ⟨fun f h root => ?_, fun _ _ _ _ _ h => SchemaRegistry.of_collect h, fun registry a => ⟨fun s => ?_, ?_⟩⟩
  · obtain ⟨hresult, d, hafter⟩ := validators_of_ready (.of_founded h) root
    exact ⟨hresult, by rw [hafter]⟩
  · exact SchemaRegistry.mem_reachable
  · exact fun fuel => SchemaRegistry.reach_follow_eq a

/-- A schema that checks a node by a function, and the node below by itself. -/
def nodeSchema : Schema :=
  .mk "node" .null [{ type := .custom, functionName := .text "isEven" }] []
    [.mk .always (.named "node") .null (.text "child")]

/-- A form that knows the schema and the function. -/
def nodeForm : Form where
  functions := { checks := [("isEven", ⟨fun _ _ => .ok (.value .null), "field", []⟩)] }
  rulebook := { schemas := [("node", nodeSchema)] }

theorem validators_eq_rules_node : (nodeForm.next (.applySchema "root" (.ofName "node"))).Founded ∧
    (result (validators (.map [])) (nodeForm.next (.applySchema "root" (.ofName "node")))).toOption.map
      (·.map (·.1)) = some ["root"] ∧
    (∃ r, ((nodeForm.rulebook.schemas.collect (.map []) [("root", .ofName "node")]).run.run {}).1 = .ok r ∧
      ∃ b ∈ r.validators, ∃ s ∈ nodeForm.rulebook.schemas.reachable (.ofName "node"), b.schema = some s.name) ∧
    ((SchemaApplication.ofName "node").reach (nodeForm.rulebook.schemas.follow 3) {}).schemas =
      nodeForm.rulebook.schemas.reachable (.ofName "node") := by
  have founded : (nodeForm.next (.applySchema "root" (.ofName "node"))).Founded := by
    refine .next (.fresh ?_) nofun
    rfl
  refine ⟨founded, ?_, ?_, (validators_eq_rules.2.2 _ _).2 3 (by decide)⟩
  · rw [(validators_eq_rules.1 _ founded _).1]
    decide +kernel
  · have hcollect : ((nodeForm.rulebook.schemas.collect (.map [])
        [("root", .ofName "node")]).run.run {}).1.toOption.map (·.validators.isEmpty) = some false := by decide +kernel
    obtain ⟨r, hr, hempty⟩ := Option.map_eq_some_iff.mp hcollect
    cases hc : ((nodeForm.rulebook.schemas.collect (.map []) [("root", .ofName "node")]).run.run {}).1 with
    | error e => rw [hc] at hr; cases hr
    | ok r' =>
      rw [hc] at hr
      obtain rfl : r' = r := Option.some.inj hr
      obtain ⟨b, hb⟩ := List.exists_mem_of_ne_nil r'.validators fun h => by rw [h] at hempty; cases hempty
      obtain ⟨p, hp, s, hs, hname, -⟩ := (validators_eq_rules.2.1 _ _ _ _ _ hc).1 b hb
      obtain rfl := List.mem_singleton.mp hp
      exact ⟨r', rfl, b, hb, s, hs, hname⟩

end Form
end FormRules
