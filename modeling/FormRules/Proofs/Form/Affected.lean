import FormRules.Form.Stream
import FormRules.Proofs.Condition.Evaluated
import FormRules.Proofs.Derivation.Complete
import FormRules.Proofs.Expr.FieldNames
import FormRules.Proofs.Expr.Rearranged
import FormRules.Proofs.Request.Resolved
import FormRules.Proofs.Value.Rearranged
import FormRules.Proofs.Value.Reduced
import Mathlib.Data.List.Dedup

/-!
# Requests and the changes that affect them

A derivation that asks a service is triggered by the changes of what its request reads. The paths are read off the texts
of its expressions, or else the forms are compared without the target. Where that finds nothing but other orders of
entries, the request is the same.
-/

namespace FormRules
open Value

/-! ## Requests over forms that are the same -/

namespace Context
variable {v w external : Value} {c c' : Context}

theorem arrayItem?_rearranged (h : Rearranged v w) (keys : List Key) :
    Option.Rel (fun a b => Rearranged a.1 b.1 ∧ a.2 = b.2) (arrayItem? v keys) (arrayItem? w keys) := by
  unfold arrayItem?
  generalize keys.reverse = ks
  induction ks with
  | nil => exact .none
  | cons k ks ih =>
    cases k with
    | index n =>
      cases ks with
      | nil => exact ih
      | cons k ks => exact .some ⟨h.getPath _, rfl⟩
    | _ => cases ks <;> exact ih

/-- Contexts that give the same up to the order of entries. -/
structure Rearranged (c c' : Context) : Prop where
  current : Value.Rearranged c.current c'.current
  form : Value.Rearranged c.form c'.form
  root : Value.Rearranged c.root c'.root
  path : c.path = c'.path
  external : c.external = c'.external
  arrayIndex : c.arrayIndex = c'.arrayIndex

theorem Rearranged.scope (h : c.Rearranged c') : Expr.ScopesRearranged c.scope c'.scope := by
  have haligned : Aligned c.scope c'.scope := by
    rw [Context.scope, Context.scope, h.path, h.external, h.arrayIndex]
    exact .cons ⟨rfl, h.current⟩ (.cons ⟨rfl, h.form⟩ (.cons ⟨rfl, h.root⟩ (.cons ⟨rfl, .same _⟩
      (.cons ⟨rfl, .same _⟩ (.cons ⟨rfl, .same _⟩ .nil)))))
  exact haligned.lookup

theorem forKeys_rearranged (h : Value.Rearranged v w) (keys : List Key) (external : Value) :
    (forKeys v keys external none).Rearranged (forKeys w keys external none) := by
  have hitem := arrayItem?_rearranged h keys
  unfold forKeys
  generalize arrayItem? v keys = x at hitem ⊢
  generalize arrayItem? w keys = y at hitem ⊢
  cases hitem with
  | none => exact ⟨h.getPath keys, h, h, rfl, rfl, rfl⟩
  | @some a b hab =>
    have hindex : some a.2.1 = some b.2.1 := by rw [hab.2]
    refine ⟨h.getPath keys, ?_, h, rfl, rfl, hindex⟩
    show Value.Rearranged (if a.1.isUndefined then v else a.1) (if b.1.isUndefined then w else b.1)
    rw [hab.1.isUndefined_eq]
    split
    · exact h
    · exact hab.1

end Context

namespace Expr
variable {s t : Scope}

theorem evaluate_rearranged (h : ScopesRearranged s t) (source : String) :
    Corresponds Rearranged (evaluate source s) (evaluate source t) :=
  Corresponds.bind (R := Eq) (.refl (fun _ => rfl) _) fun _ _ hnode => hnode ▸ valueIn_rearranged h _

theorem evaluateEntries_rearranged {es : Entries}
    (h : ∀ k e, (k, Value.text e) ∈ es → Corresponds Rearranged (evaluate e s) (evaluate e t)) :
    Corresponds Aligned (evaluateEntries s es) (evaluateEntries t es) := by
  induction es with
  | nil => exact .ok .nil
  | cons entry es ih =>
    obtain ⟨k, v⟩ := entry
    have hv : Corresponds Rearranged (evaluateText s v) (evaluateText t v) := by
      cases v with
      | text e => exact h k e List.mem_cons_self
      | _ => exact .ok (.same _)
    have hes := ih fun k e he => h k e (List.mem_cons_of_mem _ he)
    unfold evaluateEntries at hes ⊢
    rw [List.mapM_cons, List.mapM_cons]
    refine Corresponds.bind (R := fun a b => a.1 = b.1 ∧ Rearranged a.2 b.2) ?_ fun a b hab =>
      hes.bind fun as bs hrest => .ok (.cons hab hrest)
    exact hv.bind fun a b hab => .ok ⟨rfl, hab⟩

/-- Evaluating the values of a mapping leaves its keys. -/
theorem keys_of_evaluateEntries {es gs : Entries} (h : evaluateEntries s es = .ok gs) :
    gs.map (·.1) = es.map (·.1) := by
  induction es generalizing gs with
  | nil =>
    cases h
    rfl
  | cons e es ih =>
    unfold evaluateEntries at h ih
    rw [List.mapM_cons] at h
    obtain ⟨a, ha, h⟩ := of_bind_ok h
    obtain ⟨rest, hrest, h⟩ := of_bind_ok h
    obtain ⟨v, -, hv⟩ := of_bind_ok ha
    cases h
    cases hv
    rw [List.map_cons, List.map_cons, ih hrest]

end Expr

namespace Request
variable {r : Request} {s t : Expr.Scope} {ps qs : Entries} {v w : Value}

theorem paramTexts_eq (h : Aligned ps qs) : paramTexts ps = paramTexts qs := by
  unfold paramTexts
  induction h with
  | nil => rfl
  | cons hab _ ih => rw [List.filterMap_cons, List.filterMap_cons, hab.1, hab.2.isNullish_eq, hab.2.toText_eq, ih]

theorem resolveBody_rearranged (hbody : r.body.hasDistinctKeys = true)
    (h : ∀ e ∈ r.expressions, Corresponds Rearranged (Expr.evaluate e s) (Expr.evaluate e t)) :
    Corresponds Rearranged (r.resolveBody s) (r.resolveBody t) := by
  unfold resolveBody
  split
  · next es hevaluate heq =>
    rw [heq, hasDistinctKeys, Bool.and_eq_true, decide_eq_true_eq] at hbody
    have hentries : Corresponds Aligned (Expr.evaluateEntries s es) (Expr.evaluateEntries t es) :=
      Expr.evaluateEntries_rearranged fun k e he => h e <| List.mem_append_right _ <| by
        rw [hevaluate, heq]
        exact Value.mem_texts.mpr ⟨k, he⟩
    cases hs : Expr.evaluateEntries s es with
    | error f =>
      rw [hs] at hentries
      generalize Expr.evaluateEntries t es = y at hentries ⊢
      cases hentries
      exact .error f
    | ok as =>
      rw [hs] at hentries
      generalize Expr.evaluateEntries t es = y at hentries ⊢
      cases hentries
      next bs hab =>
        have has : (as.map (·.1)).Nodup := by
          rw [Expr.keys_of_evaluateEntries hs]
          exact hbody.1
        exact .ok (.of_aligned hab has)
  · exact .refl .same _

/-- A request whose expressions come to the same is the same. -/
theorem resolveIn_rearranged (hbody : r.body.hasDistinctKeys = true)
    (h : ∀ e ∈ r.expressions, Corresponds Rearranged (Expr.evaluate e s) (Expr.evaluate e t)) :
    Corresponds Rearranged (r.resolveIn s) (r.resolveIn t) := by
  have hparams : Corresponds Aligned (Expr.evaluateEntries s r.queryParams) (Expr.evaluateEntries t r.queryParams) :=
    Expr.evaluateEntries_rearranged fun k e he => h e (List.mem_append_left _ (Value.mem_texts.mpr ⟨k, he⟩))
  refine hparams.bind fun ps qs hps => (resolveBody_rearranged hbody h).bind fun v w hvw => .ok ?_
  have hbody : Aligned (if r.body.isUndefined then [] else [("body", v)]) (if r.body.isUndefined then [] else [("body", w)]) := by
    split
    · exact .nil
    · exact .cons ⟨rfl, hvw⟩ .nil
  have hfields : Aligned (r.resolvedFields ps v) (r.resolvedFields qs w) := by
    rw [resolvedFields, resolvedFields, paramTexts_eq hps]
    exact List.rel_append (List.rel_append (Aligned.refl _) hbody) (Aligned.refl _)
  exact .object_of_aligned hfields (r.nodup_resolvedFields ps v)

end Request

/-! ## Expressions that name the fields they read -/

/-- The fields of the form that a text names. -/
def Expr.Reference.fieldsNamed (source : String) : List String := ((paths source).filter isFieldName).dedup

/-- What is left of a form for an expression that reads some fields only. -/
def Value.restricted (form : Value) (fields : List String) : Value :=
  .object (fields.map fun p => (p, form.getPath [.name p]))

/-- What is left of a context for such an expression. -/
def Context.restricted (c : Context) (fields : List String) : Context :=
  { c with form := c.form.restricted fields, root := .undefined }

namespace Value
variable {es gs : Entries} {fields : List String} {p : String}

theorem walk?_entry : (Value.map es).walk? [.name p] = Table.get? es (.name p) := by
  have hkey : readKey es (.name p) = .name p := by simp [readKey, Key.isIndex]
  rw [walk?, step?_map, hkey]
  cases Table.get? es (.name p) <;> rfl

theorem exists_entries {v : Value} (h : v.isMap = true) : ∃ es, v = .map es := by
  cases v <;> cases h
  exact ⟨_, rfl⟩

theorem getPath_entry : (Value.map es).getPath [.name p] = (Table.get? es (.name p)).getD .undefined := by
  rw [getPath, if_neg (by simp), walk?_entry]

theorem get?_restricted {form : Value} (h : p ∈ fields) :
    Table.get? ((fields.map fun p => (p, form.getPath [.name p])).map fun f => (Key.name f.1, f.2)) (.name p) =
      some (form.getPath [.name p]) := by
  induction fields with
  | nil => cases h
  | cons q fields ih =>
    rw [List.map_cons, List.map_cons]
    by_cases hq : q = p
    · subst hq
      exact Table.get?_cons_self
    · rw [Table.get?_cons_of_ne fun heq => hq (Key.name.inj heq)]
      exact ih ((List.mem_cons.mp h).resolve_left (Ne.symm hq))

/-- Reading the fields that are left is reading the form. -/
theorem sameFields_restricted {P : String → Bool} (h : ∀ p, P p = true → p ∈ fields) :
    Expr.SameFields P (.map es) ((Value.map es).restricted fields) := by
  refine ⟨⟨rfl, rfl⟩, fun p hp => ?_, fun p => ?_⟩
  · have hget : (Expr.lookUp? es (.name p)).getD .undefined = (Value.map es).getPath [.name p] := getPath_entry.symm
    have hproperty : Expr.property (.map es) (.name p) = Expr.property ((Value.map es).restricted fields) (.name p) := by
      have hleft : (Expr.lookUp? ((fields.map fun p => (p, (Value.map es).getPath [.name p])).map fun f => (Key.name f.1, f.2))
          (.name p)).getD .undefined = (Value.map es).getPath [.name p] := by
        rw [Expr.lookUp?, get?_restricted (h p hp)]
        rfl
      exact hget.trans hleft.symm
    rw [Expr.readProperty, Expr.readProperty, hproperty]
    rfl
  · unfold Expr.admitMethod
    split
    · exact ⟨_, rfl, rfl⟩
    · exact ⟨_, rfl, rfl⟩

theorem restricted_rearranged (hnodup : fields.Nodup) {v w : Value}
    (h : ∀ p ∈ fields, Rearranged (v.getPath [.name p]) (w.getPath [.name p])) :
    Rearranged (v.restricted fields) (w.restricted fields) := by
  refine .object_of_aligned ?_ ?_
  · clear hnodup
    induction fields with
    | nil => exact .nil
    | cons p fields ih =>
      obtain ⟨hp, hfields⟩ := List.forall_mem_cons.mp h
      exact .cons ⟨rfl, hp⟩ (ih hfields)
  · rw [List.map_map]
    exact (List.map_id fields).symm ▸ hnodup

end Value

namespace Expr
open Reference

theorem Reference.mem_fieldsNamed {source p : String} :
    p ∈ fieldsNamed source ↔ p ∈ paths source ∧ isFieldName p = true := by
  rw [fieldsNamed, List.mem_dedup, List.mem_filter]

/-- An expression that names the fields it reads comes to the same where these fields are the same. -/
theorem evaluate_rearranged_of_names {c c' : Context} {source : String} {es gs : Entries} (hsource : showsNames source = true)
    (hc : c.form = .map es) (hc' : c'.form = .map gs) (hcurrent : Rearranged c.current c'.current)
    (hpath : c.path = c'.path) (hexternal : c.external = c'.external) (hindex : c.arrayIndex = c'.arrayIndex)
    (hfields : ∀ p ∈ paths source, isFieldName p = true →
      Rearranged ((Value.map es).getPath [.name p]) ((Value.map gs).getPath [.name p])) :
    Corresponds Rearranged (evaluate source c.scope) (evaluate source c'.scope) := by
  unfold evaluate
  cases hp : parse source with
  | error f => exact .error f
  | ok node =>
    -- the form is replaced by what is left of it for the fields that are named
    have hkeeps := keepsTo_of_showsNames hsource hp
    have hleft {c : Context} {es : Entries} (hc : c.form = .map es) :
        valueIn c.scope node = valueIn (c.restricted (fieldsNamed source)).scope node := by
      refine valueIn_congr_fields hkeeps (fun name hname => ?_) (congrArg some hc) rfl ?_
      · simp only [List.contains_cons, List.contains_nil, Bool.not_eq_true', Bool.or_false, Bool.or_eq_false_iff] at hname
        obtain ⟨hform, hroot⟩ := hname
        simp only [Context.scope, Context.restricted, List.lookup_cons, hform, hroot]
      · rw [Context.restricted, hc]
        exact sameFields_restricted fun p hp => mem_fieldsNamed.mpr (by simpa using hp)
    have hcontexts : (c.restricted (fieldsNamed source)).Rearranged (c'.restricted (fieldsNamed source)) := by
      refine ⟨hcurrent, restricted_rearranged (List.nodup_dedup _) fun p hp => ?_, .same _, hpath, hexternal, hindex⟩
      obtain ⟨hp, hname⟩ := mem_fieldsNamed.mp hp
      rw [hc, hc']
      exact hfields p hp hname
    show Corresponds Rearranged (valueIn c.scope node) (valueIn c'.scope node)
    rw [hleft hc, hleft hc']
    exact valueIn_rearranged hcontexts.scope node

end Expr

/-! ## What a request reads and what a derivation compares -/

/-- Whether a derivation asks a service by a request, depends on what that reads, and always asks. -/
structure Derivation.Asks (d : Derivation) (r : Request) : Prop where
  source : ∃ response, d.source = .http r response
  undeclared : d.dependsOn = []
  ungated : d.condition = none

/-- Whether the texts of a request show what it reads of two forms, for a target with these keys: all of them name the
fields that they read, and the target is in no array item; or no field is found, so that the whole forms are compared,
and the target can be overwritten in both without hiding a difference. -/
inductive Request.IsSeen (r : Request) (keys : List Key) (previous current : Value) : Prop
  | fields (hnames : ∀ e ∈ r.expressions, Expr.Reference.showsNames e = true) (hunscoped : Path.Unscoped keys)
      (hprevious : previous.isMap = true) (hcurrent : current.isMap = true)
  | whole {v w : Value} (hnone : ∀ e ∈ r.expressions, Expr.Reference.paths e = [])
      (hplace : SharePlace keys previous current) (hprevious : previous.setPath keys .undefined = .ok v)
      (hcurrent : current.setPath keys .undefined = .ok w)

/-- Whether a request depends on a path: one in its texts, or all fields if there is none. -/
def Request.DependsOn (r : Request) (p : String) : Prop :=
  (∃ e ∈ r.expressions, p ∈ Expr.Reference.paths e) ∨ p = allFields ∧ ∀ e ∈ r.expressions, Expr.Reference.paths e = []

/-- The pairs of values that a derivation compares to tell whether a change affects it. -/
inductive Stream.Compares (s : Stream) (previous current : Value) : Value → Value → Prop
  | elsewhere {keys : List Key} {v w : Value} (hall : allFields ∈ s.reads) (hkeys : Path.keys s.derivation.target = .ok keys)
      (hv : previous.setPath keys .undefined = .ok v) (hw : current.setPath keys .undefined = .ok w) :
      Compares s previous current v w
  | field {path : String} {keys : List Key} (hall : allFields ∉ s.reads) (hpath : path ∈ s.reads)
      (hkeys : Path.keys path = .ok keys) : Compares s previous current (previous.getPath keys) (current.getPath keys)

section
variable {d : Derivation} {r : Request} {s : Stream} {keys : List Key} {previous current external v w : Value}

/-- A request depends on the paths in its texts, or on everything if there are none. -/
theorem Derivation.Asks.dependencies (hd : d.Asks r) : ∃ deps, d.dependencies = .ok deps ∧ ∀ p, p ∈ deps ↔ r.DependsOn p := by
  obtain ⟨response, hsource⟩ := hd.source
  refine ⟨_, by rw [Derivation.dependencies, hd.undeclared, hd.ungated, hsource]; rfl, fun p => ?_⟩
  rw [List.mem_eraseDups, List.append_nil, Request.DependsOn]
  by_cases hnone : ∀ e ∈ r.expressions, Expr.Reference.paths e = []
  · have hempty : r.expressions.flatMap Expr.Reference.paths = [] := List.flatMap_eq_nil_iff.mpr hnone
    rw [hempty]
    simp only [List.eraseDups_nil, List.isEmpty_nil, if_true, List.mem_singleton]
    refine ⟨fun hp => .inr ⟨hp, hnone⟩, ?_⟩
    rintro (⟨e, he, hp⟩ | ⟨hp, -⟩)
    · rw [hnone e he] at hp
      cases hp
    · exact hp
  · have hpaths : (r.expressions.flatMap Expr.Reference.paths).eraseDups.isEmpty = false := by
      rw [List.isEmpty_eq_false_iff]
      intro hempty
      refine hnone fun e he => List.eq_nil_iff_forall_not_mem.mpr fun q hq => ?_
      have hmem : q ∈ (r.expressions.flatMap Expr.Reference.paths).eraseDups :=
        List.mem_eraseDups.mpr (List.mem_flatMap.mpr ⟨e, he, hq⟩)
      rw [hempty] at hmem
      cases hmem
    simp only [hpaths, Bool.false_eq_true, if_false, List.mem_eraseDups, List.mem_flatMap, hnone, and_false, or_false]

namespace Stream

theorem differsAt_cons {p : String} {paths : List String} (hkeys : Path.keys p = .ok keys) :
    differsAt previous current (p :: paths) =
      if (previous.getPath keys).strictEq (current.getPath keys) then differsAt previous current paths else .ok true := by
  rw [differsAt, hkeys]
  rfl

/-- Paths that can be read are compared one by one. -/
theorem differsAt_of_readable {paths : List String} (h : ∀ p ∈ paths, ∃ keys, Path.keys p = .ok keys) :
    differsAt previous current paths = .ok true ∨ differsAt previous current paths = .ok false ∧
      ∀ p ∈ paths, ∀ keys, Path.keys p = .ok keys → (previous.getPath keys).strictEq (current.getPath keys) = true := by
  induction paths with
  | nil => exact .inr ⟨rfl, nofun⟩
  | cons p paths ih =>
    obtain ⟨⟨keys, hkeys⟩, hpaths⟩ := List.forall_mem_cons.mp h
    rw [differsAt_cons hkeys]
    split_ifs with heq
    · refine (ih hpaths).imp_right (And.imp_right fun hall => List.forall_mem_cons.mpr ⟨fun keys' hkeys' => ?_, hall⟩)
      cases hkeys.symm.trans hkeys'
      exact heq
    · exact .inl rfl

/-- A change affects the derivation if a pair of compared values is not strictly equal. -/
theorem isAffected_of_compares (hread : allFields ∉ s.reads → ∀ p ∈ s.reads, ∃ keys, Path.keys p = .ok keys)
    (h : s.Compares previous current v w) (hne : v.strictEq w = false) : s.isAffected previous current = .ok true := by
  unfold isAffected
  cases h with
  | elsewhere hall hkeys hv hw =>
    rw [if_pos (List.contains_iff_mem.mpr hall)]
    simp only [differsElsewhere, hkeys, hv, hw, Except.mapError, bind, Except.bind, pure, Except.pure, hne]
    rfl
  | field hall hpath hkeys =>
    rw [if_neg (by simpa using hall)]
    refine (differsAt_of_readable (hread hall)).resolve_right fun h => ?_
    rw [h.2 _ hpath _ hkeys] at hne
    cases hne

/-- In forms in which nothing is written in two ways nothing compared is. -/
theorem Compares.not_rewritten (hprevious : previous.isReduced = true) (hcurrent : current.isReduced = true)
    (h : s.Compares previous current v w) : ¬ Rewritten v w := by
  cases h with
  | elsewhere _ _ hv hw =>
    exact Value.not_rewritten (isReduced_setPath hprevious rfl hv) (isReduced_setPath hcurrent rfl hw)
  | field => exact Value.not_rewritten (isReduced_getPath hprevious _) (isReduced_getPath hcurrent _)

end Stream

theorem Derivation.Asks.reads (hd : d.Asks r) : ∃ s, Stream.ofDerivation d = .ok s ∧ s.derivation = d ∧
    ∀ p, p ∈ s.reads ↔ r.DependsOn p := by
  obtain ⟨deps, hdeps, hmem⟩ := hd.dependencies
  refine ⟨_, by rw [Stream.ofDerivation, hdeps]; rfl, rfl, hmem⟩

/-- What is compared can be read, if the texts show what the request reads. -/
theorem Request.IsSeen.readable (hseen : r.IsSeen keys previous current)
    (hmem : ∀ p, p ∈ s.reads ↔ r.DependsOn p) (hall : allFields ∉ s.reads) :
    ∀ p ∈ s.reads, ∃ keys, Path.keys p = .ok keys := by
  intro p hp
  obtain ⟨e, he, hp⟩ | ⟨-, hnone⟩ := (hmem p).mp hp
  · cases hseen with
    | fields hnames =>
      obtain ⟨n, names, hnames, rfl⟩ := Expr.Reference.of_mem_paths_of_showsNames (hnames e he) hp
      exact ⟨_, Expr.Reference.keys_of_names hnames⟩
    | whole hnone =>
      rw [hnone e he] at hp
      cases hp
  · exact absurd ((hmem allFields).mpr (.inr ⟨rfl, hnone⟩)) hall

/-- A request is the same where what is compared for it is the same. -/
theorem Request.resolve_rearranged (hkeys : Path.keys s.derivation.target = .ok keys)
    (hmem : ∀ p, p ∈ s.reads ↔ r.DependsOn p) (hseen : r.IsSeen keys previous current)
    (hdistinct : previous.hasDistinctKeys = true ∧ current.hasDistinctKeys = true ∧ r.body.hasDistinctKeys = true)
    (htarget : Rearranged (previous.getPath keys) (current.getPath keys))
    (hsame : ∀ v w, s.Compares previous current v w → Rearranged v w) :
    Corresponds Rearranged (r.resolve (Context.forKeys previous keys external none))
      (r.resolve (Context.forKeys current keys external none)) := by
  obtain ⟨hprevious, hcurrent, hbody⟩ := hdistinct
  refine resolveIn_rearranged hbody fun e he => ?_
  cases hseen with
  | fields hnames hunscoped hmap hmap' =>
    obtain ⟨es, rfl⟩ := exists_entries hmap
    obtain ⟨gs, rfl⟩ := exists_entries hmap'
    rw [Context.forKeys_of_unscoped hunscoped, Context.forKeys_of_unscoped hunscoped]
    refine Expr.evaluate_rearranged_of_names (hnames e he) rfl rfl htarget rfl rfl rfl fun p hp hname => ?_
    have hpath : p ∈ s.reads := (hmem p).mpr (.inl ⟨e, he, hp⟩)
    have hall : allFields ∉ s.reads := fun h => by
      obtain ⟨e', he', hp'⟩ | ⟨-, hnone⟩ := (hmem allFields).mp h
      · exact Expr.Reference.allFields_not_mem_paths (hnames e' he') hp'
      · rw [hnone e he] at hp
        cases hp
    exact hsame _ _ (.field hall hpath (Expr.Reference.keys_of_isFieldName hname))
  | whole hnone hplace hv hw =>
    have hall : allFields ∈ s.reads := (hmem allFields).mpr (.inr ⟨rfl, hnone⟩)
    have hforms := hplace.rearranged hprevious hcurrent hv hw (hsame _ _ (.elsewhere hall hkeys hv hw))
    exact Expr.evaluate_rearranged (Context.forKeys_rearranged hforms keys external).scope e

/-- A change that alters the request of a derivation affects the derivation, if the texts of the request show what it
reads and the target keeps its value; unless all that differs in what is compared is how a number or a sequence is
written. -/
theorem Stream.affected_of_request_ne {before after : Value} (hd : d.Asks r) (hkeys : Path.keys d.target = .ok keys)
    (hseen : r.IsSeen keys previous current)
    (hdistinct : previous.hasDistinctKeys = true ∧ current.hasDistinctKeys = true ∧ r.body.hasDistinctKeys = true)
    (hbefore : r.resolve (Context.forKeys previous keys external none) = .ok before)
    (hafter : r.resolve (Context.forKeys current keys external none) = .ok after)
    (htarget : Rearranged (previous.getPath keys) (current.getPath keys)) (hne : ¬ Rearranged before after) :
    ∃ s, Stream.ofDerivation d = .ok s ∧ (s.isAffected previous current = .ok true ∨
      ∃ v w, s.Compares previous current v w ∧ Rewritten v w) := by
  obtain ⟨s, hs, rfl, hmem⟩ := hd.reads
  refine ⟨s, hs, ?_⟩
  by_cases hsame : ∀ v w, s.Compares previous current v w → Rearranged v w
  · have hrequests : Corresponds Rearranged (r.resolve (Context.forKeys previous keys external none))
        (r.resolve (Context.forKeys current keys external none)) :=
      Request.resolve_rearranged hkeys hmem hseen hdistinct htarget hsame
    rw [hbefore, hafter] at hrequests
    cases hrequests
    exact absurd ‹_› hne
  · obtain ⟨v, w, hcompares, hdiffer⟩ : ∃ v w, s.Compares previous current v w ∧ ¬ Rearranged v w := by
      simpa using hsame
    cases hstrict : v.strictEq w with
    | true => exact .inr ⟨v, w, hcompares, hstrict, hdiffer⟩
    | false => exact .inl (isAffected_of_compares (hseen.readable hmem) hcompares hstrict)

/-- The rate of a currency, which a service knows. -/
def rateRequest : Request where
  url := "/rates"
  method := .null
  queryParams := [(.name "currency", .text "formValue?.currency")]
  body := .undefined
  headers := []
  evaluateBody := false

def rateDerivation : Derivation where
  target := "rate"
  source := .http rateRequest (.text "response")
  condition := none
  dependsOn := []
  debounceMs := none

theorem Stream.affected_of_request_ne_rate : ∃ s, Stream.ofDerivation rateDerivation = .ok s ∧
    s.isAffected (.object [("currency", .text "EUR")]) (.object [("currency", .text "USD")]) = .ok true := by
  have hkeys : Path.keys "rate" = .ok [.name "rate"] := rfl
  have hbefore : rateRequest.resolve (Context.forKeys (.object [("currency", .text "EUR")]) [.name "rate"] .undefined none) =
      .ok (.object (rateRequest.resolvedFields [(.name "currency", .text "EUR")] .undefined)) := rfl
  have hafter : rateRequest.resolve (Context.forKeys (.object [("currency", .text "USD")]) [.name "rate"] .undefined none) =
      .ok (.object (rateRequest.resolvedFields [(.name "currency", .text "USD")] .undefined)) := rfl
  obtain ⟨s, hs, h⟩ := Stream.affected_of_request_ne (d := rateDerivation) ⟨⟨_, rfl⟩, rfl, rfl⟩ hkeys
    (.fields (by decide +kernel) nofun rfl rfl) (by decide +kernel) hbefore hafter (.same .undefined)
    fun hsame => absurd (hsame.getPath [.name "url"]).toText_eq (by decide +kernel)
  refine ⟨s, hs, h.resolve_right ?_⟩
  rintro ⟨v, w, hcompares, hrewritten⟩
  have hreads : Stream.ofDerivation rateDerivation = .ok { derivation := rateDerivation, reads := ["currency"] } := rfl
  cases hs.symm.trans hreads
  cases hcompares with
  | elsewhere hall => exact absurd hall (by decide)
  | field _ hpath hkeys =>
    obtain rfl := List.mem_singleton.mp hpath
    have hcurrency : Path.keys "currency" = .ok [.name "currency"] := rfl
    cases hkeys.symm.trans hcurrency
    exact absurd hrewritten.1 (by decide +kernel)

end
end FormRules
