import FormRules.Proofs.Form.Checks
import FormRules.Proofs.Validation.Division

/-!
# What validating a form finds

Validating collects the validators for the value, passes over those whose functions are not registered, and checks the
others one by one. Guards may ask inquiries on the way, but what has been compiled stands for the validators from then on
(`Stocked`), so that every check comes to what the validator that stands for it finds (`Form.Finds`).
-/

namespace FormRules
open Live

/-- Conditions that decide about a form: tests that it has compiled, guards of validators that it has compiled, and the
conditions and guards of rules. -/
inductive Form.Mentions (f : Form) (r : Rules) : Condition → Prop
  | compiled {t : Test} (h : .test t ∈ f.compiled.functions) : Mentions f r (.test t)
  | checked {key : String} {w : CompiledValidator} {c : Condition} (h : Table.get? f.compiled.validators key = some w)
      (hc : c ∈ w.config.guards) : Mentions f r c
  | logic {b : Bound LogicRule} {c : Condition} (h : b ∈ r.logic) (hc : c ∈ b.rule.condition :: b.rule.guards) :
      Mentions f r c
  | validator {b : Bound Validator} {c : Condition} (h : b ∈ r.validators) (hc : c ∈ b.rule.guards) : Mentions f r c

/-- What can answer for a validator: something compiled with its key, and with guards that the form knows of. -/
structure Form.StandsFor (f : Form) (r : Rules) (w : CompiledValidator) (v : Validator) : Prop where
  key : w.config.key = v.key
  compiled : w.config.compile f.functions = .ok w
  guards : ∀ c ∈ w.config.guards, f.Mentions r c

/-- What the check of a validator comes to, at some moment: what is found by something that stands for it. -/
def Form.Finds (f : Form) (r : Rules) (path : String) (v : Validator) (o : Option ValidationError) : Prop :=
  ∃ w field g, f.StandsFor r w v ∧ Path.keys path = .ok field ∧
    result (w.validate (hostAt f.functions field) (Context.forKeys f.value field f.external none)) g = .ok o

/-- The validators of rules can be checked: it can be told of each whether it reads other fields, and its path can be
read, unless the function that it names is not registered. -/
structure Rules.Placed (fs : Functions) (r : Rules) : Prop where
  unknown : ∀ b ∈ r.validators, ∀ e, b.rule.compile fs = .error e →
    ∃ kind name available, e = .unknownFunction kind name available
  told : ∀ b ∈ r.validators, b.rule.Compiles fs → ∃ x, b.rule.isCrossField (some fs) b.path = .ok x
  read : ∀ b ∈ r.validators, b.rule.Compiles fs → ∃ field, Path.keys b.path = .ok field

/-- Whether a validator can be compiled; that a function is not registered is no fault. -/
def Validator.isKnownIn (fs : Functions) (v : Validator) : Outcome Bool :=
  match v.compile fs with
  | .ok _ => .ok true
  | .error (.unknownFunction _ _ _) => .ok false
  | .error e => .error e

/-- The validators of rules whose functions are registered, at their paths and in order. -/
def Rules.registered (fs : Functions) (r : Rules) : List (String × Validator) :=
  (r.validators.filter fun b => (b.rule.compile fs).isOk).map fun b => (b.path, b.rule)

/-- The validators of rules that can be compiled, at their paths. -/
def Rules.known (fs : Functions) (r : Rules) : Outcome (List (String × Validator)) := do
  let known ← r.validators.filterM fun b => b.rule.isKnownIn fs
  return known.map fun b => (b.path, b.rule)

/-- Those of single fields, and those of the whole form. -/
def Rules.divided (fs : Functions) (r : Rules) : Outcome (List (String × Validator) × List (String × Validator)) := do
  Validator.split fs (← r.known fs)

theorem Rules.mem_registered {fs : Functions} {r : Rules} {p : String × Validator} :
    p ∈ r.registered fs ↔ ∃ b ∈ r.validators, b.rule.Compiles fs ∧ p = (b.path, b.rule) := by
  simp only [registered, List.mem_map, List.mem_filter, Validator.compiles_iff, and_assoc, eq_comm]

theorem Validator.isKnownIn_eq {fs : Functions} {v : Validator} {x : Bool} (h : v.isKnownIn fs = .ok x) :
    x = (v.compile fs).isOk := by
  unfold isKnownIn at h
  split at h
  · next hw =>
    rw [hw]
    exact (Except.ok.inj h).symm
  · next he =>
    rw [he]
    exact (Except.ok.inj h).symm
  · cases h

namespace Rules
variable {fs : Functions} {r : Rules} {vs own tree : List (String × Validator)}

theorem known_eq_ok_iff : r.known fs = .ok vs ↔
    (∀ b ∈ r.validators, ∃ x, b.rule.isKnownIn fs = .ok x) ∧ vs = r.registered fs := by
  have known (h : ∀ b ∈ r.validators, ∃ x, b.rule.isKnownIn fs = .ok x) : r.known fs = .ok (r.registered fs) := by
    have hall : ∀ b ∈ r.validators, b.rule.isKnownIn fs = .ok (b.rule.compile fs).isOk := fun b hb => by
      obtain ⟨x, hx⟩ := h b hb
      rw [hx, Validator.isKnownIn_eq hx]
    rw [Rules.known, filterM_ok hall]
    rfl
  constructor
  · intro h
    obtain ⟨bs, hbs, -⟩ := of_bind_ok h
    have hall := ok_of_filterM hbs
    exact ⟨hall, (Except.ok.inj ((known hall).symm.trans h)).symm⟩
  · rintro ⟨h, rfl⟩
    exact known h

/-- Those that are known are divided if it can be told of each where it belongs, each half in the order of the rules. -/
theorem divided_eq_ok_iff : r.divided fs = .ok (own, tree) ↔
    (∀ b ∈ r.validators, ∃ x, b.rule.isKnownIn fs = .ok x) ∧ (∀ p ∈ r.registered fs, Validator.Told fs p) ∧
      own = (r.registered fs).filter (!Validator.crosses fs ·) ∧ tree = (r.registered fs).filter (Validator.crosses fs) := by
  constructor
  · intro h
    obtain ⟨vs, hvs, hsplit⟩ := of_bind_ok h
    obtain ⟨hknown, rfl⟩ := known_eq_ok_iff.mp hvs
    exact ⟨hknown, Validator.split_eq_ok_iff.mp hsplit⟩
  · rintro ⟨hknown, h⟩
    rw [divided, known_eq_ok_iff.mpr ⟨hknown, rfl⟩]
    exact Validator.split_eq_ok_iff.mpr h

namespace Placed

theorem isKnownIn (h : r.Placed fs) : ∀ b ∈ r.validators, ∃ x, b.rule.isKnownIn fs = .ok x := by
  intro b hb
  unfold Validator.isKnownIn
  cases he : b.rule.compile fs with
  | ok w => exact ⟨true, rfl⟩
  | error e =>
    obtain ⟨kind, name, available, rfl⟩ := h.unknown b hb e he
    exact ⟨false, rfl⟩

theorem told_of_registered (h : r.Placed fs) : ∀ p ∈ r.registered fs, Validator.Told fs p := by
  intro p hp
  obtain ⟨b, hb, hcompiles, rfl⟩ := mem_registered.mp hp
  exact h.told b hb hcompiles

theorem divided_eq (h : r.Placed fs) : r.divided fs = .ok
    ((r.registered fs).filter (!Validator.crosses fs ·), (r.registered fs).filter (Validator.crosses fs)) :=
  divided_eq_ok_iff.mpr ⟨h.isKnownIn, h.told_of_registered, rfl, rfl⟩

end Placed
end Rules

namespace Live
variable {α β : Type} {f g : Form} {r : Rules} {v : Validator} {w : CompiledValidator}

/-! ## Compiling -/

/-- Something that has been compiled stands for a validator. -/
theorem compileValidator_found (h : Table.get? f.compiled.validators v.key = some w) :
    result (compileValidator v) f = .ok w ∧ after (compileValidator v) f = f := by
  unfold compileValidator Compiled.validator
  rw [result_get_bind, after_get_bind]
  simp only [h]
  exact ⟨rfl, rfl⟩

theorem compileValidator_added (h : Table.get? f.compiled.validators v.key = none)
    (hw : v.compile f.functions = .ok w) : result (compileValidator v) f = .ok w ∧ after (compileValidator v) f =
      { f with compiled := { f.compiled with validators := Table.put f.compiled.validators v.key w } } := by
  unfold compileValidator Compiled.validator
  rw [result_get_bind, after_get_bind]
  simp only [h, hw]
  exact ⟨rfl, rfl⟩

theorem compileValidator_failed {e : Fault} (h : Table.get? f.compiled.validators v.key = none)
    (he : v.compile f.functions = .error e) :
    result (compileValidator v) f = .error e ∧ after (compileValidator v) f = f := by
  unfold compileValidator Compiled.validator
  rw [result_get_bind, after_get_bind]
  simp only [h, he]
  exact ⟨rfl, rfl⟩

/-- What has been done to a form while its validators were collected: some have been compiled, from those of rules. -/
structure Collected (f : Form) (r : Rules) (done : List (Bound Validator)) (g : Form) : Prop where
  lasting : g.lasting = f.lasting
  made : g.compiled.Made
  sound : g.compiled.Sound g.functions
  guards : ∀ key w, Table.get? g.compiled.validators key = some w → ∀ c ∈ w.config.guards, f.Mentions r c
  has : ∀ b ∈ done, b.rule.Compiles f.functions → g.compiled.Has b.rule

/-- A validator of rules is compiled, or something that stands for it has been, unless it does not compile. -/
theorem Collected.compiled {done : List (Bound Validator)} {b : Bound Validator} (h : Collected f r done g)
    (hb : b ∈ r.validators) :
    (∃ e, b.rule.compile f.functions = .error e ∧ result (compileValidator b.rule) g = .error e ∧
      after (compileValidator b.rule) g = g) ∨
    b.rule.Compiles f.functions ∧ (∃ w, result (compileValidator b.rule) g = .ok w) ∧
      Collected f r (b :: done) (after (compileValidator b.rule) g) := by
  have hfunctions : g.functions = f.functions := (Form.of_lasting_rules h.lasting).1
  rw [← hfunctions]
  cases hget : Table.get? g.compiled.validators b.rule.key with
  | some u =>
    obtain ⟨hresult, hafter⟩ := compileValidator_found hget
    have hhas : g.compiled.Has b.rule := Compiled.has_of_get? hget
    rw [hafter]
    refine .inr ⟨h.sound.compiles hhas, ⟨u, hresult⟩, h.lasting, h.made, h.sound, h.guards, ?_⟩
    exact List.forall_mem_cons.mpr ⟨fun _ => hhas, h.has⟩
  | none =>
    cases hw : b.rule.compile g.functions with
    | error e =>
      obtain ⟨hresult, hafter⟩ := compileValidator_failed hget hw
      exact .inl ⟨e, rfl, hresult, hafter⟩
    | ok w =>
      have hgrows : g.compiled.Grows g.functions _ := .validator hget hw
      obtain ⟨hresult, hafter⟩ := compileValidator_added hget hw
      rw [hafter]
      refine .inr ⟨⟨w, hw⟩, ⟨w, hresult⟩, h.lasting, h.made.grows hgrows, h.sound.grows hgrows, fun key u hu => ?_,
        List.forall_mem_cons.mpr ⟨fun _ => Compiled.has_of_get? Table.get?_put_self,
          fun a ha hcompiles => hgrows.has (h.has a ha hcompiles)⟩⟩
      obtain ⟨-, rfl⟩ | hu := Table.of_get?_put hu
      · rw [Validator.config_of_compile hw]
        exact fun c hmem => .validator hb hmem
      · exact h.guards key u hu

/-- Collecting a validator of rules tells whether it is known, and compiles it if it is. -/
theorem Collected.isKnown {done : List (Bound Validator)} {b : Bound Validator} (h : Collected f r done g)
    (hb : b ∈ r.validators) : result (isKnown b) g = b.rule.isKnownIn f.functions ∧
      ∀ x, b.rule.isKnownIn f.functions = .ok x → Collected f r (b :: done) (after (isKnown b) g) := by
  unfold Validator.isKnownIn
  obtain ⟨e, he, hresult, hafter⟩ | ⟨⟨w, hw⟩, ⟨u, hresult⟩, hcollected⟩ := h.compiled hb
  · have hattempt := result_attempt (compileValidator b.rule) g
    rw [hresult] at hattempt
    have hskipped (g' : Form) (hl : g'.lasting = g.lasting) (hc : g'.compiled = g.compiled) :
        Collected f r (b :: done) g' := by
      refine ⟨hl.trans h.lasting, hc ▸ h.made, ?_, hc ▸ h.guards, List.forall_mem_cons.mpr ⟨?_, hc ▸ h.has⟩⟩
      · rw [hc, (Form.of_lasting_rules hl).1]
        exact h.sound
      · rintro ⟨u, hu⟩
        exact absurd (he.symm.trans hu) nofun
    unfold Live.isKnown
    rw [he, result_bind_ok hattempt, after_bind_ok hattempt, after_attempt, hafter]
    cases e with
    | unknownFunction kind name available => exact ⟨rfl, fun _ _ => hskipped _ rfl rfl⟩
    | _ => exact ⟨rfl, nofun⟩
  · obtain ⟨hknown, hsame⟩ := isKnown_of_compiled hresult
    rw [hw, hsame]
    exact ⟨hknown, fun _ _ => hcollected⟩

/-- Something that has been compiled stands for each validator of rules that compiles, whatever else is done. -/
structure Stocked (f : Form) (r : Rules) (g : Form) : Prop where
  lasting : g.lasting = f.lasting
  made : g.compiled.Made
  sound : g.compiled.Sound g.functions
  has : ∀ b ∈ r.validators, b.rule.Compiles f.functions →
    ∃ w, Table.get? g.compiled.validators b.rule.key = some w ∧ ∀ c ∈ w.config.guards, f.Mentions r c

theorem Collected.stocked (h : Collected f r r.validators.reverse g) : Stocked f r g := by
  refine ⟨h.lasting, h.made, h.sound, fun b hb hcompiles => ?_⟩
  obtain ⟨w, hw⟩ := Option.isSome_iff_exists.mp (h.has b (List.mem_reverse.mpr hb) hcompiles)
  exact ⟨w, hw, h.guards _ w hw⟩

theorem Stocked.move {h : Form} (hg : Stocked f r g) (hm : Move g h) : Stocked f r h := by
  refine ⟨hm.lasting.trans hg.lasting, Form.made_of_turn (.move hm) hg.made, Form.sound_of_move hg.sound hm, ?_⟩
  intro b hb hcompiles
  obtain ⟨w, hw, hguards⟩ := hg.has b hb hcompiles
  obtain hsame | hgrows := hm.compiled_eq_or_grows
  · exact ⟨w, by rw [hsame, hw], hguards⟩
  · exact ⟨w, hgrows.get?_validators hw, hguards⟩

/-- The validators for the value are those of the rules that are known, and something stands for each of them. -/
theorem splitValidators_eq (h : Collected f r [] g) (hr : result (rules f.value) g = .ok r) :
    result (splitValidators f.value) g = r.divided f.functions ∧
      ∀ parts, r.divided f.functions = .ok parts → Stocked f r (after (splitValidators f.value) g) := by
  have hcollected : Collected f r [] (after (rules f.value) g) := ⟨h.lasting, h.made, h.sound, h.guards, nofun⟩
  obtain ⟨hknown, hdone⟩ := filterM_eq (fun b hb done k (hk : Collected f r done k) => hk.isKnown hb) hcollected
  unfold splitValidators validators Rules.divided Rules.known
  cases hbs : r.validators.filterM fun b => b.rule.isKnownIn f.functions with
  | error e =>
    rw [hbs] at hknown
    refine ⟨result_bind_error ?_, nofun⟩
    rw [result_bind_ok hr, result_bind_error hknown]
  | ok bs =>
    rw [hbs] at hknown
    have hstocked := (hdone bs hbs).stocked
    have hvalidators : result (rules f.value >>= fun r => r.validators.filterM isKnown >>= fun known =>
        pure (known.map fun b => (b.path, b.rule))) g = .ok (bs.map fun b => (b.path, b.rule)) := by
      rw [result_bind_ok hr, result_bind_ok hknown]
      rfl
    have hafter : after (rules f.value >>= fun r => r.validators.filterM isKnown >>= fun known =>
        (pure (known.map fun b => (b.path, b.rule)) : Live _)) g =
          after (r.validators.filterM isKnown) (after (rules f.value) g) := by
      rw [after_bind_ok hr, after_bind_ok hknown]
      rfl
    constructor
    · rw [result_bind_ok hvalidators, result_get_bind, hafter, (Form.of_lasting_rules hstocked.lasting).1]
      rfl
    · intro parts _
      rwa [after_bind_ok hvalidators, hafter, after_get_bind, after_ofOutcome]

/-- The validators that can be checked are divided without one being lost, and something stands for each of them. -/
theorem splitValidators_spec (h : Collected f r [] g) (hr : result (rules f.value) g = .ok r)
    (hp : r.Placed f.functions) :
    ∃ own tree, result (splitValidators f.value) g = .ok (own, tree) ∧
      (∀ p, p ∈ own ++ tree ↔ ∃ b ∈ r.validators, b.rule.Compiles f.functions ∧ p = (b.path, b.rule)) ∧
      Stocked f r (after (splitValidators f.value) g) := by
  obtain ⟨hresult, hstocked⟩ := splitValidators_eq h hr
  refine ⟨_, _, hresult.trans hp.divided_eq, fun p => ?_, hstocked _ hp.divided_eq⟩
  rw [← Rules.mem_registered, List.mem_append, List.mem_filter, List.mem_filter, ← and_or_left]
  cases Validator.crosses f.functions p <;> simp

/-! ## Checking -/

/-- One result for every member, and every result for a member. -/
theorem mapM_spec {P : Form → Prop} {R : α → β → Prop} {p : α → Live β} {l : List α}
    (hp : ∀ a ∈ l, ∀ f, P f → (∃ b, result (p a) f = .ok b ∧ R a b) ∧ P (after (p a) f)) (hf : P f) :
    ∃ bs, result (l.mapM p) f = .ok bs ∧ (∀ a ∈ l, ∃ b ∈ bs, R a b) ∧ ∀ b ∈ bs, ∃ a ∈ l, R a b := by
  induction l generalizing f with
  | nil => exact ⟨[], rfl, nofun, nofun⟩
  | cons a l ih =>
    obtain ⟨ha, hl⟩ := List.forall_mem_cons.mp hp
    obtain ⟨⟨b, hb, hab⟩, hafter⟩ := ha f hf
    obtain ⟨bs, hbs, hall, hback⟩ := ih hl hafter
    refine ⟨b :: bs, ?_, List.forall_mem_cons.mpr ⟨⟨b, List.mem_cons_self, hab⟩, fun c hc => ?_⟩,
      List.forall_mem_cons.mpr ⟨⟨a, List.mem_cons_self, hab⟩, fun c hc => ?_⟩⟩
    · rw [List.mapM_cons, result_bind_ok hb, result_bind_ok hbs]
      rfl
    · obtain ⟨d, hd, hcd⟩ := hall c hc
      exact ⟨d, List.mem_cons_of_mem _ hd, hcd⟩
    · obtain ⟨d, hd, hcd⟩ := hback c hc
      exact ⟨d, List.mem_cons_of_mem _ hd, hcd⟩

/-- The context that a field is given is the one over the form's value. -/
structure Shows (f : Form) (context : List Key → Live Context) : Prop where
  shown : ∀ g, g.lasting = f.lasting → ∀ field,
    result (context field) g = .ok (Context.forKeys f.value field f.external none)
  moves : ∀ field, Follows Move (context field)

/-- Reading the field as it is shows the same as the pass over the form's value. -/
theorem currentContext_shows : Shows f currentContext where
  shown g hl field := by
    obtain ⟨hvalue, -, hexternal⟩ := Form.of_lasting_context hl
    rw [← hvalue, ← hexternal]
    rfl
  moves := currentContext_moves

theorem snapshotContext_shows : Shows f (snapshotContext f.value) where
  shown g hl field := by
    rw [← (Form.of_lasting_context hl).2.2]
    rfl
  moves := snapshotContext_moves f.value

/-- A check runs what its validator has been compiled to, in the context of its path. -/
theorem result_checkIn {context : List Key → Live Context} {path : String} {field : List Key} (hc : Shows f context)
    (h : Stocked f r g) (hw : Table.get? g.compiled.validators v.key = some w) (hk : Path.keys path = .ok field) :
    ∃ k, Stocked f r k ∧ result (checkIn context path v) g =
      result (w.validate (hostAt f.functions field) (Context.forKeys f.value field f.external none)) k := by
  obtain ⟨hresult, hafter⟩ := compileValidator_found hw
  have hread : result (ofOutcome (Path.keys path)) g = .ok field := hk
  have hshown := hc.shown g h.lasting field
  have hstocked : Stocked f r (after (context field) g) := (hc.moves field g).keeps (fun _ _ hm hs => hs.move hm) h
  refine ⟨_, hstocked, ?_⟩
  unfold checkIn
  rw [result_bind_ok hresult, hafter, result_bind_ok hread, after_ofOutcome, result_bind_ok hshown, result_get_bind,
    (Form.of_lasting_rules hstocked.lasting).1]

theorem checkIn_finds {b : Bound Validator} {field : List Key} {context : List Key → Live Context} (hc : Shows f context)
    (h : Stocked f r g) (hb : b ∈ r.validators) (hcompiles : b.rule.Compiles f.functions)
    (hk : Path.keys b.path = .ok field) :
    ∃ o, result (checkIn context b.path b.rule) g = .ok o ∧ f.Finds r b.path b.rule o := by
  obtain ⟨w, hw, hguards⟩ := h.has b hb hcompiles
  obtain ⟨hkey, hcompile⟩ := h.sound _ w hw
  obtain ⟨k, hstocked, hresult⟩ := result_checkIn hc h hw hk
  have responds := hostAt_responds (fun _ _ hm => Form.made_of_turn (.move hm)) (fun _ h => h) f.functions field
  obtain ⟨⟨o, ho⟩, -⟩ := validate_succeeds responds (Context.forKeys f.value field f.external none) w k hstocked.made
  rw [(Form.of_lasting_rules h.lasting).1] at hcompile
  exact ⟨o, hresult.trans ho, w, field, k, ⟨hkey, hcompile, hguards⟩, hk, ho⟩

/-- What validating finds is what the validators find that are known. -/
theorem checkNow_finds (h : Collected f r [] g) (hr : result (rules f.value) g = .ok r) (hp : r.Placed f.functions) :
    ∃ es, result (checkNow f.value) g = .ok es ∧
      (∀ b ∈ r.validators, b.rule.Compiles f.functions →
        ∃ o, f.Finds r b.path b.rule o ∧ ∀ e, o = some e → e ∈ es) ∧
      ∀ e ∈ es, ∃ b ∈ r.validators, f.Finds r b.path b.rule (some e) := by
  obtain ⟨own, tree, hsplit, hparts, hstocked⟩ := splitValidators_spec h hr hp
  have passes {context : List Key → Live Context} (hc : Shows f context) {ps : List (String × Validator)}
      (hps : ∀ p ∈ ps, p ∈ own ++ tree) {k : Form} (hk : Stocked f r k) :
      ∃ os, result (ps.mapM fun p => checkIn context p.1 p.2) k = .ok os ∧
        (∀ p ∈ ps, ∃ o ∈ os, f.Finds r p.1 p.2 o) ∧ ∀ o ∈ os, ∃ p ∈ ps, f.Finds r p.1 p.2 o := by
    refine mapM_spec (fun p hmem k hk => ?_) hk
    obtain ⟨b, hb, hcompiles, rfl⟩ := (hparts p).mp (hps p hmem)
    obtain ⟨field, hfield⟩ := hp.read b hb hcompiles
    exact ⟨checkIn_finds hc hk hb hcompiles hfield,
      (checkIn_moves hc.moves _ _ k).keeps (fun _ _ hm hs => hs.move hm) hk⟩
  obtain ⟨os, hos, hall, hback⟩ := passes currentContext_shows (fun p => List.mem_append_left tree) hstocked
  have hstocked := (Follows.mapM (l := own) (fun p : String × Validator => checkIn_moves currentContext_moves p.1 p.2)
    _).keeps (fun _ _ hm hs => Stocked.move hs hm) hstocked
  obtain ⟨os', hos', hall', hback'⟩ := passes snapshotContext_shows (fun p => List.mem_append_right own) hstocked
  refine ⟨(os ++ os').filterMap id, ?_, fun b hb hcompiles => ?_, fun e he => ?_⟩
  · unfold checkNow
    rw [result_bind_ok hsplit, result_bind_ok hos]
    exact result_bind_ok hos'
  · have hmem := (hparts (b.path, b.rule)).mpr ⟨b, hb, hcompiles, rfl⟩
    obtain ⟨o, ho, hfinds⟩ : ∃ o ∈ os ++ os', f.Finds r b.path b.rule o := by
      rcases List.mem_append.mp hmem with hmem | hmem
      · obtain ⟨o, ho, hfinds⟩ := hall _ hmem
        exact ⟨o, List.mem_append_left _ ho, hfinds⟩
      · obtain ⟨o, ho, hfinds⟩ := hall' _ hmem
        exact ⟨o, List.mem_append_right _ ho, hfinds⟩
    exact ⟨o, hfinds, fun e he => List.mem_filterMap.mpr ⟨o, ho, he⟩⟩
  · obtain ⟨o, ho, rfl⟩ := List.mem_filterMap.mp he
    obtain ⟨p, hmem, hfinds⟩ : ∃ p ∈ own ++ tree, f.Finds r p.1 p.2 (some e) := by
      rcases List.mem_append.mp ho with ho | ho
      · obtain ⟨p, hp, hfinds⟩ := hback _ ho
        exact ⟨p, List.mem_append_left _ hp, hfinds⟩
      · obtain ⟨p, hp, hfinds⟩ := hback' _ ho
        exact ⟨p, List.mem_append_right _ hp, hfinds⟩
    obtain ⟨b, hb, -, rfl⟩ := (hparts p).mp hmem
    exact ⟨b, hb, hfinds⟩

end Live

namespace Form
variable {f : Form} {r : Rules}

/-- Validating a form comes to an end if its validators can be checked, and finds what they find. -/
theorem validate_finds (hf : f.Reachable) (hr : result (rules f.value) f = .ok r) (hp : r.Placed f.functions) :
    ∃ es, result validate f = .ok es ∧
      (∀ b ∈ r.validators, b.rule.Compiles f.functions →
        ∃ o, f.Finds r b.path b.rule o ∧ ∀ e, o = some e → e ∈ es) ∧
      ∀ e ∈ es, ∃ b ∈ r.validators, f.Finds r b.path b.rule (some e) :=
  checkNow_finds (g := { f with reading := none }) ⟨rfl, hf.made, hf.sound, fun _ _ h _ hc => .checked h hc, nofun⟩ hr hp

end Form
end FormRules
