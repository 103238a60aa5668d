import FormRules.Proofs.Form.Validated

/-!
# Validating in two passes

The validators of single fields run first, each over the form as it is, then those that read other fields, over the
value that validating began with. Neither route makes a difference: what a check finds is what its compiled validator
finds over a snapshot of the form, whichever pass it runs in (`Live.Mirrors`). Dividing the validators only moves errors.
-/

namespace FormRules
open Live
open Reporting (Steady)

/-! ## What is found does not depend on what has been reported -/

theorem Expr.valueOrReport_steady (e : Value) (c : Context) : Steady (Expr.valueOrReport e c) := by
  unfold valueOrReport
  split
  · exact .pure _
  · exact .report _ (.pure _)

namespace Builtin

theorem failIf_steady (failed : Outcome Bool) (params : Entries) : Steady (failIf failed params).run := by
  unfold failIf
  split <;> exact .of_outcome _

theorem violates_steady (pattern text : String) : Steady (violates pattern text).run := by
  unfold violates
  split
  · exact .of_outcome _
  · exact (Steady.report _ (.pure ())).lift.andThen fun _ => .of_outcome _
  · exact .of_outcome _
  · exact .of_outcome _

theorem failure_steady (b : Builtin) (value bound : Value) : Steady (b.failure value bound).run := by
  have bounded {x : Checking (Option Entries)} (hx : Steady x.run) :
      Steady (if bound.isNullish then (return none : Checking (Option Entries)) else x).run := by
    split
    · exact .of_outcome _
    · exact hx
  cases b with
  | required => exact .of_outcome _
  | email => exact .of_outcome _
  | min => exact bounded (failIf_steady _ _)
  | max => exact bounded (failIf_steady _ _)
  | minLength | maxLength =>
    refine bounded ?_
    split
    · exact .of_outcome _
    · exact failIf_steady _ _
  | pattern =>
    refine bounded ((violates_steady _ _).andThen fun b => ?_)
    split <;> exact .of_outcome _

theorem check_steady (b : Builtin) (value bound : Value) : Steady (b.check value bound).run := by
  unfold check
  split
  · exact .of_outcome _
  · split
    · exact .of_outcome _
    · exact failure_steady _ value bound

end Builtin

/-! ## A form answers as its snapshot -/

namespace Live
variable {α β : Type} {f g : Form} {r : Rules} {v : Validator} {w : CompiledValidator}

/-- Over any form, and whatever has been reported, the first computation gives what the second gives. -/
def Mirrors (x : Live α) (y : Reporting α) : Prop := ∀ f j, result x f = .ok (y.run j).1

namespace Mirrors
variable {x : Live α} {y : Reporting α} {k : α → Live β} {l : α → Reporting β}

theorem pure (a : α) : Mirrors (Pure.pure a) (Pure.pure a) := fun _ _ => rfl

theorem bind (hx : Mirrors x y) (hk : ∀ a, Mirrors (k a) (l a)) : Mirrors (x >>= k) (y >>= l) := fun f j =>
  (result_bind_ok (hx f j)).trans (hk _ _ _)

theorem ite {p : Prop} [Decidable p] {x' : Live α} {y' : Reporting α} (h : Mirrors x y) (h' : Mirrors x' y') :
    Mirrors (if p then x else x') (if p then y else y') := by
  split
  · exact h
  · exact h'

theorem lift (hy : Steady y) : Mirrors (ofReporting y) y := fun f j => congrArg Except.ok (hy f.journal j)

/-- Faults that a computation deals with itself are mirrored, too. -/
theorem run_bind {x : ExceptT Fault Live α} {y : ExceptT Fault Reporting α} {k : α → ExceptT Fault Live β}
    {l : α → ExceptT Fault Reporting β} (hx : Mirrors x.run y.run) (hk : ∀ a, Mirrors (k a).run (l a).run) :
    Mirrors (x >>= k).run (y >>= l).run := by
  rw [ExceptT.run_bind, ExceptT.run_bind]
  refine hx.bind fun o => ?_
  cases o with
  | ok a => exact hk a
  | error e => exact pure _

theorem run_lift (hx : Mirrors x y) :
    Mirrors (liftM x : ExceptT Fault Live α).run (liftM y : ExceptT Fault Reporting α).run := by
  show Mirrors (Except.ok <$> x) (Except.ok <$> y)
  rw [map_eq_pure_bind, map_eq_pure_bind]
  exact hx.bind fun _ => pure _

end Mirrors

section
variable (fs : Functions) (field : List Key) (c : Context)

theorem valueOf_mirrors (e : Value) : Mirrors (valueOf e c) (Expr.valueOrReport e c) := fun f j =>
  congrArg Except.ok (Expr.valueOrReport_steady e c f.journal j)

theorem guardsHold_mirrors {gs : List Condition} (hgs : ∀ g ∈ gs, ∃ t, g = .test t) :
    Mirrors ((hostAt fs field).guardsHold c gs) ((Host.snapshot fs).guardsHold c gs) := by
  induction gs with
  | nil => exact .pure true
  | cons g gs ih =>
    obtain ⟨⟨t, rfl⟩, hrest⟩ := List.forall_mem_cons.mp hgs
    exact (Mirrors.lift (t.holds_steady fs.customFunctions c)).bind fun _ => (ih hrest).ite (.pure false)

theorem errorParams_mirrors (es : Entries) :
    Mirrors ((hostAt fs field).errorParams c es) ((Host.snapshot fs).errorParams c es) := by
  induction es with
  | nil => exact .pure []
  | cons e es ih => exact (valueOf_mirrors c _).bind fun _ => ih.bind fun _ => .pure _

theorem check_mirrors (w : CompiledValidator) :
    Mirrors (w.check (hostAt fs field) c).run (w.check (Host.snapshot fs) c).run := by
  have outcome {α : Type} (o : Outcome α) :
      Mirrors (ExceptT.mk (pure o) : ExceptT Fault Live α).run (ExceptT.mk (pure o) : ExceptT Fault Reporting α).run :=
    .pure o
  unfold CompiledValidator.check
  cases w.source with
  | builtin b =>
    have rest (bound : Value) : Mirrors (do
        let params ← ExceptT.mk ((hostAt fs field).lift (b.check c.current bound).run)
        return params.map fun ps => w.config.error c ps .null : ExceptT Fault Live _).run (do
        let params ← ExceptT.mk ((Host.snapshot fs).lift (b.check c.current bound).run)
        return params.map fun ps => w.config.error c ps .null : ExceptT Fault Reporting _).run :=
      .run_bind (.lift (b.check_steady _ _)) fun _ => outcome (.ok _)
    dsimp only
    split
    · exact rest _
    · exact .run_bind (.run_lift (valueOf_mirrors c _)) rest
  | expression =>
    refine .run_bind (outcome _) fun passed => ?_
    split
    · exact outcome (.ok none)
    · exact .run_bind (.run_lift (errorParams_mirrors fs field c _)) fun _ => outcome (.ok _)
  | function f =>
    refine .run_bind (outcome _) fun verdict => ?_
    split
    · exact outcome (.ok none)
    · exact .run_bind (.run_lift (errorParams_mirrors fs field c _)) fun _ => outcome (.ok _)
  | async f => exact outcome (.ok none)
  | remote f => exact outcome (.ok none)

/-- With tests for guards, a validator finds over a form what it finds over a snapshot. -/
theorem validate_mirrors {w : CompiledValidator} (hgs : ∀ g ∈ w.config.guards, ∃ t, g = .test t) :
    Mirrors (w.validate (hostAt fs field) c) (w.validate (Host.snapshot fs) c) := by
  unfold CompiledValidator.validate
  refine Mirrors.ite (.pure none) ((guardsHold_mirrors fs field c hgs).bind fun b => ?_)
  refine Mirrors.ite (.pure none) ((check_mirrors fs field c w).bind fun o => ?_)
  cases o with
  | ok e => exact .pure e
  | error e => exact (Mirrors.lift (y := Journal.report .validatorFailed) fun _ _ => rfl).bind fun _ => .pure none

end

end Live

/-- What shares its key with a validator that has tests for guards has tests for guards. -/
theorem Validator.tests_of_key {v w : Validator} (h : w.key = v.key) (hv : ∀ c ∈ v.guards, ∃ t, c = .test t) :
    ∀ c ∈ w.guards, ∃ t, c = .test t := by
  have hkeys := guards_of_key h
  generalize w.guards = gs at hkeys
  generalize v.guards = hs at hkeys hv
  induction hkeys with
  | nil => nofun
  | @cons c d _ _ hkey _ ih =>
    obtain ⟨⟨t, rfl⟩, hrest⟩ := List.forall_mem_cons.mp hv
    exact List.forall_mem_cons.mpr ⟨Condition.test_of_key hkey.symm, ih hrest⟩

/-! ## One run per validator -/

/-- What is found by running what a validator has been compiled to, in the context of its path over a snapshot. -/
def Form.found (f : Form) (root : Value) (p : String × Validator) : Outcome (Option ValidationError) := do
  let w ← result (compileValidator p.2) f
  let field ← Path.keys p.1
  return ((w.validate (Host.snapshot f.functions) (Context.forKeys root field f.external none)).run {}).1

/-- What the known validators of rules find, those of single fields first. -/
def Rules.findings (fs : Functions) (r : Rules) (find : String × Validator → Outcome (Option ValidationError)) :
    Outcome (List ValidationError) := do
  let (own, tree) ← r.divided fs
  let first ← own.mapM find
  let rest ← tree.mapM find
  return (first ++ rest).filterMap id

namespace Live
variable {f g s : Form} {r : Rules} {p : String × Validator}

/-- Something has been compiled for each known validator, and stays. -/
structure Settled (f : Form) (r : Rules) (s g : Form) : Prop where
  stocked : Stocked f r g
  kept : ∀ key w, Table.get? s.compiled.validators key = some w → Table.get? g.compiled.validators key = some w

theorem Settled.move {h : Form} (hg : Settled f r s g) (hm : Move g h) : Settled f r s h := by
  refine ⟨hg.stocked.move hm, fun key w hw => ?_⟩
  obtain hsame | hgrows := hm.compiled_eq_or_grows
  · rw [hsame]
    exact hg.kept key w hw
  · exact hgrows.get?_validators (hg.kept key w hw)

/-- Checking a validator gives what is found in any form in which what has been compiled is still there. -/
theorem result_checkIn_eq {context : List Key → Live Context} {e : Form} (hc : Shows f context) (hs : Stocked f r s)
    (hg : Settled f r s g) (he : Settled f r s e) (hp : p ∈ r.registered f.functions)
    (htests : ∀ b ∈ r.validators, ∀ c ∈ b.rule.guards, ∃ t, c = .test t) :
    result (checkIn context p.1 p.2) g = e.found f.value p := by
  obtain ⟨b, hb, hcompiles, rfl⟩ := Rules.mem_registered.mp hp
  obtain ⟨w, hw, -⟩ := hs.has b hb hcompiles
  have hguards := Validator.tests_of_key (hs.sound _ w hw).1 (htests b hb)
  obtain ⟨-, hfunctions, hexternal⟩ := Form.of_lasting_context he.stocked.lasting
  unfold Form.found
  rw [(compileValidator_found (he.kept _ w hw)).1]
  cases hk : Path.keys b.path with
  | error x =>
    obtain ⟨hresult, hafter⟩ := compileValidator_found (hg.kept _ w hw)
    have hread : result (ofOutcome (Path.keys b.path)) g = .error x := hk
    unfold checkIn
    rw [result_bind_ok hresult, hafter, result_bind_error hread]
    rfl
  | ok field =>
    obtain ⟨k, -, hresult⟩ := result_checkIn hc hg.stocked (hg.kept _ w hw) hk
    rw [hresult, validate_mirrors f.functions field _ hguards k {}, ← hfunctions, ← hexternal]
    rfl

theorem result_bind {α β : Type} (x : Live α) (k : α → Live β) (f : Form) :
    result (x >>= k) f = result x f >>= fun a => result (k a) (after x f) := by
  cases h : result x f with
  | ok a => exact result_bind_ok h
  | error e => exact result_bind_error h

/-- The two passes come to what the known validators find. -/
theorem result_checkNow (h : Collected f r [] g) (hr : result (rules f.value) g = .ok r)
    (htests : ∀ b ∈ r.validators, ∀ c ∈ b.rule.guards, ∃ t, c = .test t) :
    result (checkNow f.value) g = r.findings f.functions ((after (checkNow f.value) g).found f.value) := by
  obtain ⟨hsplit, hstocked⟩ := splitValidators_eq h hr
  unfold Rules.findings
  cases hdivided : r.divided f.functions with
  | error e =>
    rw [hdivided] at hsplit
    unfold checkNow
    exact result_bind_error hsplit
  | ok parts =>
    rw [hdivided] at hsplit
    have hs := hstocked _ hdivided
    obtain ⟨own, tree⟩ := parts
    obtain ⟨-, -, rfl, rfl⟩ := Rules.divided_eq_ok_iff.mp hdivided
    unfold checkNow
    rw [result_bind_ok hsplit, after_bind_ok hsplit]
    generalize after (splitValidators f.value) g = s at hs
    have hstart : Settled f r s s := ⟨hs, fun _ _ h => h⟩
    have moves {context : List Key → Live Context} (hc : Shows f context) (ps : List (String × Validator)) :
        Follows Move (ps.mapM fun p => checkIn context p.1 p.2) :=
      .mapM fun p => checkIn_moves hc.moves p.1 p.2
    have keeps {α : Type} {x : Live α} (hx : Follows Move x) : Settled f r s (after x s) :=
      (hx s).keeps (fun _ _ hm hk => Settled.move hk hm) hstart
    -- The form after both passes, also if one faults, has all that was compiled before them.
    dsimp only
    generalize he : after _ s = e
    have hend : Settled f r s e := by
      rw [← he]
      exact keeps ((moves currentContext_shows _).bind fun _ => (moves snapshotContext_shows _).bind fun _ => .pure _)
    have pass {context : List Key → Live Context} (hc : Shows f context) {ps : List (String × Validator)}
        (hps : ∀ p ∈ ps, p ∈ r.registered f.functions) {k : Form} (hk : Settled f r s k) :
        result (ps.mapM fun p => checkIn context p.1 p.2) k = ps.mapM (e.found f.value) :=
      (mapM_eq (P := Settled f r s) (fun p hp k hk => ⟨result_checkIn_eq hc hs hk hend (hps p hp) htests, fun _ _ =>
        (checkIn_moves hc.moves p.1 p.2 k).keeps (fun _ _ hm hk => Settled.move hk hm) hk⟩) hk).1
    rw [result_bind, pass currentContext_shows (fun p => List.mem_of_mem_filter) hstart]
    refine congrArg _ (funext fun first => ?_)
    rw [result_bind, pass snapshotContext_shows (fun p => List.mem_of_mem_filter) (keeps (moves currentContext_shows _))]
    rfl

/-- If the validators could be divided, something stands for each of them afterwards. -/
theorem checkNow_stocked (h : Collected f r [] g) (hr : result (rules f.value) g = .ok r)
    {parts : List (String × Validator) × List (String × Validator)} (hdivided : r.divided f.functions = .ok parts) :
    Stocked f r (after (checkNow f.value) g) := by
  obtain ⟨hsplit, hstocked⟩ := splitValidators_eq h hr
  rw [hdivided] at hsplit
  obtain ⟨own, tree⟩ := parts
  have moves {context : List Key → Live Context} (hc : ∀ field, Follows Move (context field))
      (ps : List (String × Validator)) : Follows Move (ps.mapM fun p => checkIn context p.1 p.2) :=
    .mapM fun p => checkIn_moves hc p.1 p.2
  unfold checkNow
  rw [after_bind_ok hsplit]
  exact FollowsFrom.keeps (M := Move) (P := Stocked f r) (((moves currentContext_moves own).bind fun _ =>
    (moves (snapshotContext_moves f.value) tree).bind fun _ => .pure _) _) (fun _ _ hm hk => hk.move hm)
      (hstocked _ hdivided)

/-- A known validator that has been compiled finds something or nothing, if its path can be read. -/
theorem found_ok_iff (h : Stocked f r g) (hp : p ∈ r.registered f.functions) (root : Value) :
    (∃ o, g.found root p = .ok o) ↔ ∃ field, Path.keys p.1 = .ok field := by
  obtain ⟨b, hb, hcompiles, rfl⟩ := Rules.mem_registered.mp hp
  obtain ⟨w, hw, -⟩ := h.has b hb hcompiles
  unfold Form.found
  rw [(compileValidator_found hw).1]
  cases Path.keys b.path with
  | error e => exact ⟨nofun, nofun⟩
  | ok field => exact ⟨fun _ => ⟨field, rfl⟩, fun _ => ⟨_, rfl⟩⟩

end Live

namespace Form
variable {f : Form} {r : Rules}

theorem found_reading (f : Form) (reading : Option (List Source)) (root : Value) :
    { f with reading }.found root = f.found root := by
  funext p
  have hcompile : result (compileValidator p.2) { f with reading } = result (compileValidator p.2) f := by
    unfold compileValidator
    rw [result_get_bind, result_get_bind]
    dsimp only
    rw [result_bind, result_bind]
    rfl
  unfold found
  rw [hcompile]

/-- Validating comes to what the known validators find, be that a fault; and each of them finds something or nothing, if
it has come to running them and its path can be read. -/
theorem validate_eq (hf : f.Reachable) (hr : result (rules f.value) f = .ok r)
    (htests : ∀ b ∈ r.validators, ∀ c ∈ b.rule.guards, ∃ t, c = .test t) :
    result validate f = r.findings f.functions ((after validate f).found f.value) ∧
      ∀ parts, r.divided f.functions = .ok parts → ∀ p ∈ r.registered f.functions,
        (∃ o, (after validate f).found f.value p = .ok o) ↔ ∃ field, Path.keys p.1 = .ok field := by
  have hresult : result validate f = result (checkNow f.value) { f with reading := none } := rfl
  have hafter : after validate f = { after (checkNow f.value) { f with reading := none } with reading := f.reading } := rfl
  have hcollected : Collected f r [] { f with reading := none } :=
    ⟨rfl, hf.made, hf.sound, fun _ _ h _ hc => .checked h hc, nofun⟩
  rw [hresult, hafter, found_reading]
  exact ⟨result_checkNow hcollected hr htests, fun parts hparts p hp =>
    found_ok_iff (checkNow_stocked hcollected hr hparts) hp f.value⟩

end Form

namespace Rules
variable {fs : Functions} {r : Rules} {find : String × Validator → Outcome (Option ValidationError)}

/-- Rules can be placed if their validators are divided and the path of each known one can be read. -/
theorem placed_of_divided {parts : List (String × Validator) × List (String × Validator)}
    (h : r.divided fs = .ok parts) (hread : ∀ p ∈ r.registered fs, ∃ field, Path.keys p.1 = .ok field) : r.Placed fs := by
  obtain ⟨hknown, htold, -, -⟩ := divided_eq_ok_iff.mp h
  refine ⟨fun b hb e he => ?_, fun b hb hcompiles => ?_, fun b hb hcompiles => ?_⟩
  · obtain ⟨x, hx⟩ := hknown b hb
    unfold Validator.isKnownIn at hx
    rw [he] at hx
    split at hx
    · next h => cases h
    · next h => exact ⟨_, _, _, Except.error.inj h⟩
    · cases hx
  · exact htold (b.path, b.rule) (mem_registered.mpr ⟨b, hb, hcompiles, rfl⟩)
  · exact hread (b.path, b.rule) (mem_registered.mpr ⟨b, hb, hcompiles, rfl⟩)

/-- The known validators in the order in which they are run. -/
def inPasses (fs : Functions) (r : Rules) : List (String × Validator) :=
  (r.registered fs).filter (!Validator.crosses fs ·) ++ (r.registered fs).filter (Validator.crosses fs)

theorem inPasses_perm : (r.inPasses fs).Perm (r.registered fs) :=
  List.perm_append_comm.trans (List.filter_append_perm _ _)

/-- If everything is found that can be, the findings are those of the passes in turn. -/
theorem findings_of_placed (h : r.Placed fs) {found : String × Validator → Option ValidationError}
    (hfind : ∀ p ∈ r.registered fs, find p = .ok (found p)) :
    r.findings fs find = .ok ((r.inPasses fs).filterMap found) := by
  have pass {q : String × Validator → Bool} : ((r.registered fs).filter q).mapM find =
      .ok (((r.registered fs).filter q).map found) := mapM_ok fun p hp => hfind p (List.mem_of_mem_filter hp)
  rw [findings, h.divided_eq]
  show (List.mapM find _ >>= fun first => List.mapM find _ >>= fun rest => _) = _
  rw [pass, pass, inPasses]
  show Except.ok _ = Except.ok _
  rw [← List.map_append, List.filterMap_map]
  rfl

/-- What can be found of each known validator, if the findings come to a result. -/
theorem of_findings {es : List ValidationError} (h : r.findings fs find = .ok es) :
    ∃ parts, r.divided fs = .ok parts ∧ ∀ p ∈ r.registered fs, ∃ o, find p = .ok o := by
  obtain ⟨⟨own, tree⟩, hdivided, h⟩ := of_bind_ok h
  obtain ⟨first, hfirst, h⟩ := of_bind_ok h
  obtain ⟨rest, hrest, -⟩ := of_bind_ok h
  obtain ⟨-, -, rfl, rfl⟩ := divided_eq_ok_iff.mp hdivided
  refine ⟨_, hdivided, fun p hp => ?_⟩
  cases hcross : Validator.crosses fs p with
  | true => exact ok_of_mapM hrest p (List.mem_filter.mpr ⟨hp, hcross⟩)
  | false => exact ok_of_mapM hfirst p (List.mem_filter.mpr ⟨hp, by simp [hcross]⟩)

end Rules

namespace Form
variable {f : Form}

/-- Validating runs each known validator once, those of single fields first, over a snapshot of the form, and reports what
they find; dividing them only moves errors. It comes to an end exactly if the rules can be placed, and if they cannot be
collected at all, it raises what collecting raises. -/
theorem validate_in_passes (hf : f.Reachable) :
    (∀ e, result (rules f.value) f = .error e → result validate f = .error e) ∧
    ∀ r, result (rules f.value) f = .ok r → (∀ b ∈ r.validators, ∀ c ∈ b.rule.guards, ∃ t, c = .test t) →
      ((∃ es, result validate f = .ok es) ↔ r.Placed f.functions) ∧
      (r.Placed f.functions → ∃ found : String × Validator → Option ValidationError,
        (∀ p ∈ r.registered f.functions, (after validate f).found f.value p = .ok (found p)) ∧
        result validate f = .ok ((r.inPasses f.functions).filterMap found) ∧
        ((r.inPasses f.functions).filterMap found).Perm ((r.registered f.functions).filterMap found)) := by
  refine ⟨fun e he => ?_, fun r hr htests => ?_⟩
  · show result (checkNow f.value) { f with reading := none } = .error e
    have hrules : result (rules f.value) { f with reading := none } = .error e := he
    exact result_bind_error (result_bind_error (result_bind_error hrules))
  obtain ⟨heq, hok⟩ := validate_eq hf hr htests
  have hfound (hp : r.Placed f.functions) : ∀ p ∈ r.registered f.functions,
      ∃ o, (after validate f).found f.value p = .ok o := by
    intro p hmem
    obtain ⟨b, hb, hcompiles, rfl⟩ := Rules.mem_registered.mp hmem
    exact (hok _ hp.divided_eq _ hmem).mpr (hp.read b hb hcompiles)
  have hreported (hp : r.Placed f.functions) : ∃ found : String × Validator → Option ValidationError,
      (∀ p ∈ r.registered f.functions, (after validate f).found f.value p = .ok (found p)) ∧
      result validate f = .ok ((r.inPasses f.functions).filterMap found) := by
    generalize after validate f = g at heq hfound
    have hall : ∀ p ∈ r.registered f.functions, g.found f.value p = .ok (g.found f.value p).toOption.join := by
      intro p hmem
      obtain ⟨o, ho⟩ := hfound hp p hmem
      rw [ho]
      rfl
    exact ⟨_, hall, heq.trans (Rules.findings_of_placed hp hall)⟩
  refine ⟨⟨fun ⟨es, hes⟩ => ?_, fun hp => ?_⟩, fun hp => ?_⟩
  · obtain ⟨parts, hdivided, hall⟩ := Rules.of_findings (heq.symm.trans hes)
    exact Rules.placed_of_divided hdivided fun p hp => (hok _ hdivided p hp).mp (hall p hp)
  · obtain ⟨found, -, hes⟩ := hreported hp
    exact ⟨_, hes⟩
  · obtain ⟨found, hall, hes⟩ := hreported hp
    exact ⟨found, hall, hes, Rules.inPasses_perm.filterMap found⟩

/-- The second field is required while the first is empty, and so is the first. -/
def pairForm : Form :=
  (Form.next { value := .object [("a", .text "")] } (.attachValidator "b"
    { Validator.required with guards := [.test (.fieldValue "a" .equals (.text ""))] })).next
      (.attachValidator "a" Validator.required)

/-- The rules that apply to it, in the order in which they were attached. -/
def pairRules : Rules where
  validators := [
    ⟨"b", { Validator.required with guards := [.test (.fieldValue "a" .equals (.text ""))] }, none⟩,
    ⟨"a", Validator.required, none⟩]
  logic := []

theorem placed_pairRules : pairRules.Placed pairForm.functions := by
  have htold : ∀ b ∈ pairRules.validators, (b.rule.isCrossField (some pairForm.functions) b.path).isOk = true := by
    decide +kernel
  have hread : ∀ b ∈ pairRules.validators, (Path.keys b.path).isOk = true := by decide +kernel
  refine ⟨fun b hb e he => ?_, fun b hb _ => exists_of_isOk (htold b hb), fun b hb _ => exists_of_isOk (hread b hb)⟩
  have hcompiles : ∀ b ∈ pairRules.validators, (b.rule.compile pairForm.functions).isOk = true := by decide +kernel
  have := hcompiles b hb
  rw [he] at this
  cases this

/-- The validator that reads its own field only comes first, although it was attached last. -/
theorem validate_in_passes_pair : pairForm.Reachable ∧ result (rules pairForm.value) pairForm = .ok pairRules ∧
    (∃ found : String × Validator → Option ValidationError,
      (∀ p ∈ pairRules.registered pairForm.functions, (after validate pairForm).found pairForm.value p = .ok (found p)) ∧
      result validate pairForm = .ok ((pairRules.inPasses pairForm.functions).filterMap found)) ∧
    (pairRules.registered pairForm.functions).map (·.1) = ["b", "a"] ∧
    (pairRules.inPasses pairForm.functions).map (·.1) = ["a", "b"] ∧
    (result validate pairForm).toOption.map (·.map (·.path)) = some ["a", "b"] := by
  have hreachable : pairForm.Reachable := .next (.next (.fresh (by rfl)) _) _
  have hrules : result (rules pairForm.value) pairForm = .ok pairRules := by rfl
  have htests : ∀ b ∈ pairRules.validators, ∀ c ∈ b.rule.guards, ∃ t, c = .test t := by
    intro b hb c hc
    rcases List.mem_cons.mp hb with rfl | hb
    · exact ⟨_, List.mem_singleton.mp hc⟩
    · cases List.mem_singleton.mp hb
      cases hc
  obtain ⟨found, hall, hes, -⟩ := ((validate_in_passes hreachable).2 pairRules hrules htests).2 placed_pairRules
  exact ⟨hreachable, hrules, ⟨found, hall, hes⟩, by decide +kernel, by decide +kernel, by decide +kernel⟩

end Form
end FormRules
