import FormRules.Proofs.Derivation.Order
import FormRules.Proofs.Derivation.Outcome
import Mathlib.Data.List.Induction

/-!
# What acyclic derivations settle on

Derivations of fields that read one another without a loop have one solution: entries in which every target
holds what its derivation computes from these entries (`Settled`). A sweep over the derivations, each after
those that it reads, gives the solution, and sweeps of the solution change nothing. The order in which the
derivations were added therefore makes no difference.

A field is all that a form has under keys with one text, since an index may be read and written under its text.
-/

namespace FormRules

/-- Whether two forms hold the same in a field. -/
def AgreeOn (t : String) (es fs : Entries) : Prop := ∀ k : Key, k.text = t → Table.get? es k = Table.get? fs k

/-- Whether two forms hold the same in all fields. -/
def SameEntries (es fs : Entries) : Prop := ∀ k : Key, Table.get? es k = Table.get? fs k

namespace AgreeOn
variable {t : String} {es fs gs : Entries} {k : Key}

theorem symm (h : AgreeOn t es fs) : AgreeOn t fs es := fun k hk => (h k hk).symm

theorem trans (h : AgreeOn t es fs) (h' : AgreeOn t fs gs) : AgreeOn t es gs := fun k hk => (h k hk).trans (h' k hk)

theorem readKey (h : AgreeOn k.text es fs) : Value.readKey es k = Value.readKey fs k := by
  rw [Value.readKey, Value.readKey, Table.has, Table.has, h k rfl]

theorem writeKey (h : AgreeOn k.text es fs) : Value.writeKey es k = Value.writeKey fs k := by
  rw [Value.writeKey, Value.writeKey, Table.has, Table.has, h k rfl, h (.name k.text) rfl]

theorem getPath (h : AgreeOn k.text es fs) (ks : List Key) :
    (Value.map es).getPath (k :: ks) = (Value.map fs).getPath (k :: ks) := by
  have hstep : (Value.map es).step? k = (Value.map fs).step? k := by
    rw [Value.step?_map, Value.step?_map, h.readKey, h _ Value.text_readKey]
  rw [Value.getPath, Value.getPath, Value.walk?, Value.walk?, hstep]

end AgreeOn

theorem SameEntries.agreeOn {es fs : Entries} (h : SameEntries es fs) (t : String) : AgreeOn t es fs := fun k _ => h k

namespace Derivation
variable {fs : Functions} {external : Value} {d e : Derivation} {ds order done rest : List Derivation}
  {es gs hs : Entries} {o : Outcome (Option Value)} {j k : Key} {t : String}

/-! ## Writing one field -/

theorem written_apart (h : j.text ≠ k.text) : Table.get? (written k es o) j = Table.get? es j := by
  unfold written
  split
  · split
    · rfl
    · exact Table.get?_put_of_ne fun hj => h ((congrArg Key.text hj).trans Value.text_writeKey)
  · rfl
  · rfl

theorem written_congr (h : AgreeOn k.text es gs) : AgreeOn k.text (written k es o) (written k gs o) := by
  intro j hj
  unfold written
  split
  · rw [h.getPath, h.writeKey]
    split
    · exact h j hj
    · by_cases he : j = Value.writeKey gs k
      · rw [he, Table.get?_put_self, Table.get?_put_self]
      · rw [Table.get?_put_of_ne he, Table.get?_put_of_ne he, h j hj]
  · exact h j hj
  · exact h j hj

/-- What is not found where it has been written is written under the same key again. -/
theorem writeKey_put {v : Value}
    (h : ((Value.map (Table.put es (Value.writeKey es k) v)).getPath [k]).strictEq v = false) :
    Value.writeKey (Table.put es (Value.writeKey es k) v) k = Value.writeKey es k := by
  by_cases hc : (((Table.get? es k).getD .undefined).isUndefined && k.isIndex && Table.has es (.name k.text)) = true
  · have hw : Value.writeKey es k = .name k.text := if_pos hc
    rw [hw]
    simp only [Bool.and_eq_true] at hc
    have hne : k ≠ .name k.text := fun hk => by
      have hi := hc.1.2
      rw [hk] at hi
      cases hi
    refine if_pos ?_
    rw [Table.get?_put_of_ne hne, Table.has_put_of_has hc.2]
    simp [hc.1]
  · have hw : Value.writeKey es k = k := if_neg hc
    rw [hw] at h ⊢
    have hread : (Value.map (Table.put es k v)).getPath [k] = v := by
      simp [Value.getPath, Value.walk?, Value.step?]
    rw [hread] at h
    refine if_neg fun hc => ?_
    simp only [Table.get?_put_self, Option.getD_some, Bool.and_eq_true] at hc
    cases v with
    | undefined => simp [Value.strictEq] at h
    | _ => simp [Value.isUndefined] at hc

theorem put_put {v : Value} (es : Entries) (k j : Key) :
    Table.get? (Table.put (Table.put es k v) k v) j = Table.get? (Table.put es k v) j := by
  by_cases hj : j = k
  · rw [hj, Table.get?_put_self, Table.get?_put_self]
  · rw [Table.get?_put_of_ne hj]

/-- Writing a field once more changes nothing. -/
theorem written_written (k : Key) (es : Entries) (o : Outcome (Option Value)) :
    SameEntries (written k (written k es o) o) (written k es o) := by
  intro j
  match o with
  | .error e => rfl
  | .ok none => rfl
  | .ok (some v) =>
    by_cases hes : ((Value.map es).getPath [k]).strictEq v = true
    · have hkeep : written k es (.ok (some v)) = es := if_pos hes
      rw [hkeep, hkeep]
    · have hput : written k es (.ok (some v)) = Table.put es (Value.writeKey es k) v := if_neg hes
      rw [hput, written]
      split
      · rfl
      · next h =>
        rw [writeKey_put (by simpa using h)]
        exact put_put es _ j

/-! ## Fields that are read -/

/-- Whether what a derivation depends on are places below fields of the form, given by dotted names. -/
def Dotted (d : Derivation) : Prop :=
  ∃ deps, d.dependencies = .ok deps ∧ ∀ p ∈ deps, p ≠ allFields ∧
    ∃ k ks, Path.keys p = .ok (k :: ks) ∧ k.text = Expr.Reference.root p

/-- Whether what a derivation computes depends on the values at its dependencies only. -/
def Local (fs : Functions) (external : Value) (d : Derivation) : Prop :=
  ∀ es gs : Entries, (∀ deps, d.dependencies = .ok deps → ∀ p ∈ deps, ∀ keys, Path.keys p = .ok keys →
    (Value.map es).getPath keys = (Value.map gs).getPath keys) →
    d.outcome fs external (.map es) = d.outcome fs external (.map gs)

theorem overlaps_root (p : String) : overlaps p (Expr.Reference.root p) = true := by
  have hsplit := List.takeWhile_append_dropWhile (p := (· != '.')) (l := p.toList)
  have hroot : (Expr.Reference.root p).toList = p.toList.takeWhile (· != '.') := String.toList_ofList
  unfold overlaps
  cases hd : p.toList.dropWhile (· != '.') with
  | nil =>
    rw [hd, List.append_nil, ← hroot, String.toList_inj] at hsplit
    simp [hsplit]
  | cons c rest =>
    have hnot := List.head_dropWhile_not (· != '.') (l := p.toList) (by simp [hd])
    have hdot : c = '.' := by simpa [hd] using hnot
    have hfirst : (Expr.Reference.root p ++ ".").isPrefixOf p = true := by
      refine String.startsWith_string_iff.mpr ⟨rest, ?_⟩
      rw [hd, hdot] at hsplit
      rw [String.toList_append, hroot, List.append_assoc]
      exact hsplit
    rw [hfirst, Bool.or_true]

theorem Dotted.resolves (h : d.Dotted) : d.Resolves := h.imp fun _ hdeps => hdeps.1

/-- A derivation computes the same from forms that hold the same in the fields that it reads. -/
theorem Local.outcome_eq (hl : d.Local fs external) (hd : d.Dotted) (h : ∀ t, d.Reads t → AgreeOn t es gs) :
    d.outcome fs external (.map es) = d.outcome fs external (.map gs) := by
  obtain ⟨deps, hdeps, hall⟩ := hd
  refine hl es gs fun deps' hdeps' p hp keys hkeys => ?_
  obtain rfl := Except.ok.inj (hdeps.symm.trans hdeps')
  obtain ⟨hne, k, ks, hk, htext⟩ := hall p hp
  obtain rfl := Except.ok.inj (hkeys.symm.trans hk)
  have hreads : d.Reads k.text := ⟨deps, hdeps, p, hp, hne, htext ▸ overlaps_root p⟩
  exact (h k.text hreads).getPath ks

/-! ## The solution -/

/-- Entries in which every target holds what its derivation computes from these entries; everything else is as
it was. -/
structure Settled (fs : Functions) (external : Value) (ds : List Derivation) (es gs : Entries) : Prop where
  elsewhere : ∀ k : Key, (∀ d ∈ ds, d.target ≠ k.text) → Table.get? gs k = Table.get? es k
  solved : ∀ d ∈ ds, AgreeOn d.target gs (written d.key es (d.outcome fs external (.map gs)))

/-- Derivations of fields that read dotted names, whose values depend on nothing else and not on themselves. -/
structure Wired (fs : Functions) (external : Value) (d : Derivation) : Prop where
  field : d.OfField
  dotted : d.Dotted
  outcome : d.Local fs external
  notOwn : ¬ d.Reads d.target

theorem OfField.agreeOn (h : d.OfField) (ha : AgreeOn d.target es gs) : AgreeOn d.key.text es gs := h.text ▸ ha

theorem effect_apart (hd : d.OfField) (h : t ≠ d.target) : AgreeOn t (effect fs external es d) es :=
  fun _ hk => written_apart fun hkey => h (hk.symm.trans (hkey.trans hd.text))

/-- Applying a derivation leaves what is computed for those that do not read it. -/
theorem outcome_effect (he : e.Wired fs external) (hd : d.OfField) (h : ¬ e.Reads d.target) :
    e.outcome fs external (.map (effect fs external es d)) = e.outcome fs external (.map es) :=
  he.outcome.outcome_eq he.dotted fun _ ht => effect_apart hd fun htd => h (htd ▸ ht)

/-- A sweep over derivations, each after those that it reads, gives the solution. -/
theorem sweep_settled (hw : ∀ d ∈ order, d.Wired fs external)
    (ho : order.Pairwise fun d e => d.target ≠ e.target ∧ ¬ d.Reads e.target) (es : Entries) :
    Settled fs external order es (sweep fs external order es) := by
  induction order using List.reverseRecOn with
  | nil => exact ⟨fun _ _ => rfl, fun _ hd => absurd hd List.not_mem_nil⟩
  | append_singleton done d ih =>
    obtain ⟨hdone, -, hlast⟩ := List.pairwise_append.mp ho
    have hwd := hw d (by simp)
    have ih := ih (fun e he => hw e (List.mem_append_left _ he)) hdone
    have hsweep : sweep fs external (done ++ [d]) es = effect fs external (sweep fs external done es) d :=
      List.foldl_concat ..
    rw [hsweep]
    generalize sweep fs external done es = gs at ih
    refine ⟨fun k hk => ?_, fun e he => ?_⟩
    · have hkd : k.text ≠ d.target := (hk d (by simp)).symm
      rw [effect_apart hwd.field hkd k rfl, ih.elsewhere k fun e he => hk e (List.mem_append_left _ he)]
    · rcases List.mem_append.mp he with he | he
      · obtain ⟨hne, hreads⟩ := hlast e he d List.mem_cons_self
        rw [outcome_effect (hw e (by simp [he])) hwd.field hreads]
        exact (effect_apart hwd.field hne).trans (ih.solved e he)
      · obtain rfl := List.mem_singleton.mp he
        rw [outcome_effect hwd hwd.field hwd.notOwn]
        have hkeep : AgreeOn e.target gs es := fun k hk => ih.elsewhere k fun d hd => by
          rw [hk]
          exact (hlast d hd e List.mem_cons_self).1
        exact hwd.field.text ▸ written_congr (hwd.field.agreeOn hkeep)

/-- There is one solution only. -/
theorem Settled.unique (hw : ∀ d ∈ order, d.Wired fs external)
    (ho : order.Pairwise fun d e => d.target ≠ e.target ∧ ¬ d.Reads e.target)
    (h : Settled fs external order es gs) (h' : Settled fs external order es hs) : SameEntries gs hs := by
  have helse (t : String) (ht : ∀ d ∈ order, d.target ≠ t) : AgreeOn t gs hs := fun k hk => by
    rw [h.elsewhere k fun d hd => hk ▸ ht d hd, h'.elsewhere k fun d hd => hk ▸ ht d hd]
  -- a target agrees once those that come before it do
  have hdone (done : List Derivation) : ∀ rest, order = done ++ rest → ∀ d ∈ done, AgreeOn d.target gs hs := by
    induction done using List.reverseRecOn with
    | nil => exact fun _ _ _ hd => absurd hd List.not_mem_nil
    | append_singleton done d ih =>
      intro rest hsplit e he
      have hsplit : order = done ++ d :: rest := by simpa using hsplit
      rcases List.mem_append.mp he with he | he
      · exact ih (d :: rest) hsplit e he
      · obtain rfl := List.mem_singleton.mp he
        have hmem : e ∈ order := hsplit ▸ List.mem_append_right _ List.mem_cons_self
        have hwe := hw e hmem
        have hlater : ∀ d ∈ rest, ¬ e.Reads d.target := fun d hd =>
          ((List.pairwise_cons.mp (List.pairwise_append.mp (hsplit ▸ ho)).2.1).1 d hd).2
        have heq : e.outcome fs external (.map gs) = e.outcome fs external (.map hs) := by
          refine hwe.outcome.outcome_eq hwe.dotted fun t ht => ?_
          by_cases hex : ∃ d ∈ order, d.target = t
          · obtain ⟨d, hd, rfl⟩ := hex
            rw [hsplit, List.mem_append, List.mem_cons] at hd
            rcases hd with hd | rfl | hd
            · exact ih (e :: rest) hsplit d hd
            · exact absurd ht hwe.notOwn
            · exact absurd ht (hlater d hd)
          · exact helse t fun d hd hdt => hex ⟨d, hd, hdt⟩
        exact (h.solved e hmem).trans (heq ▸ (h'.solved e hmem).symm)
  intro k
  by_cases hex : ∃ d ∈ order, d.target = k.text
  · obtain ⟨d, hd, hk⟩ := hex
    exact hdone order [] (by simp) d hd k hk.symm
  · exact helse k.text (fun d hd hk => hex ⟨d, hd, hk⟩) k rfl

theorem Settled.congr (h : Settled fs external ds es gs) (hw : ∀ d ∈ ds, d.Wired fs external)
    (hsame : SameEntries hs gs) : Settled fs external ds es hs where
  elsewhere k hk := (hsame k).trans (h.elsewhere k hk)
  solved d hd := by
    rw [(hw d hd).outcome.outcome_eq (hw d hd).dotted fun t _ => hsame.agreeOn t]
    exact (hsame.agreeOn d.target).trans (h.solved d hd)

theorem Settled.of_mem (h : Settled fs external order es gs) (hmem : ∀ d, d ∈ order ↔ d ∈ ds) :
    Settled fs external ds es gs where
  elsewhere k hk := h.elsewhere k fun d hd => hk d ((hmem d).mp hd)
  solved d hd := h.solved d ((hmem d).mpr hd)

/-- Applying a derivation to the solution changes nothing. -/
theorem Settled.effect (h : Settled fs external ds es gs) (hw : ∀ d ∈ ds, d.Wired fs external) (hd : d ∈ ds) :
    SameEntries (effect fs external gs d) gs := by
  intro k
  by_cases hk : k.text = d.target
  · have hsolved : AgreeOn d.key.text gs _ := (hw d hd).field.agreeOn (h.solved d hd)
    have hkey : k.text = d.key.text := hk.trans (hw d hd).field.text.symm
    exact (written_congr hsolved k hkey).trans ((written_written _ _ _ k).trans (hsolved k hkey).symm)
  · exact effect_apart (hw d hd).field hk k rfl

/-- Sweeps of the solution change nothing. -/
theorem Settled.sweep (h : Settled fs external ds es gs) (hw : ∀ d ∈ ds, d.Wired fs external) (ho : order ⊆ ds) :
    SameEntries (sweep fs external order gs) gs := by
  induction order generalizing gs with
  | nil => exact fun _ => rfl
  | cons d order ih =>
    obtain ⟨hd, ho⟩ := List.cons_subset.mp ho
    have hstep := h.effect hw hd
    exact fun k => (ih (h.congr hw hstep) ho k).trans (hstep k)

theorem Settled.iterate (h : Settled fs external ds es gs) (hw : ∀ d ∈ ds, d.Wired fs external) (ho : order ⊆ ds)
    (n : Nat) : SameEntries ((Derivation.sweep fs external order)^[n] gs) gs := by
  induction n generalizing gs with
  | zero => exact fun _ => rfl
  | succ n ih =>
    have hstep := h.sweep hw ho
    exact fun k => (ih (h.congr hw hstep) k).trans (hstep k)

/-! ## Runs -/

/-- Derivations that have one solution: each has a value at once and a field of its own, what they read is
given by dotted names and decides what they compute, and nothing reads itself, be it through others. -/
structure WellPosed (fs : Functions) (external : Value) (ds : List Derivation) : Prop where
  sync : ∀ d ∈ ds, d.isAsync = false
  registered : ∀ d ∈ ds, d.Registered fs
  targets : (ds.map (·.target)).Nodup
  wired : ∀ d ∈ ds, d.Wired fs external
  acyclic : Acyclic ds

namespace WellPosed
variable {ds' : List Derivation}

theorem resolves (h : WellPosed fs external ds) : ∀ d ∈ ds, d.Resolves := fun d hd => (h.wired d hd).dotted.resolves

theorem perm (h : WellPosed fs external ds) (hp : ds.Perm ds') : WellPosed fs external ds' where
  sync d hd := h.sync d (hp.mem_iff.mpr hd)
  registered d hd := h.registered d (hp.mem_iff.mpr hd)
  targets := (hp.map _).nodup_iff.mp h.targets
  wired d hd := h.wired d (hp.mem_iff.mpr hd)
  acyclic := h.acyclic.subset h.resolves hp.symm.subset

theorem foldlM_add (h : WellPosed fs external ds) : ds.foldlM (Derivation.add fs) [] = .ok ds :=
  @Derivation.foldlM_add [] ds fs h.sync h.registered h.resolves h.acyclic

/-- A run gives the solution, if it may take a pass. -/
theorem run_settled (h : WellPosed fs external ds) (maxPasses : Nat) (es : Entries) :
    Checking.Yields (fun r => ∃ gs, r.value = .map gs ∧
      if maxPasses = 0 then gs = es else Settled fs external ds es gs) (run fs external maxPasses ds (.map es)) := by
  obtain ⟨order, ho, hmem, hordered⟩ := order_sound h.sync h.targets h.resolves h.acyclic
  have hw : ∀ d ∈ order, d.Wired fs external := fun d hd => h.wired d ((hmem d).mp hd)
  intro j
  obtain ⟨r, hr, n, hn, hvalue⟩ := @run_yields fs external ds order es ho (fun d hd => (hw d hd).field) maxPasses j
  refine ⟨r, hr, _, hvalue, ?_⟩
  split
  · next hzero => rw [hn.mpr hzero]; rfl
  · next hpos =>
    obtain ⟨m, rfl⟩ := Nat.exists_eq_succ_of_ne_zero fun hzero => hpos (hn.mp hzero)
    have hsettled := sweep_settled hw hordered es
    have hsame := hsettled.iterate hw (List.Subset.refl _) m
    exact (hsettled.congr hw hsame).of_mem hmem

end WellPosed

/-- Whatever the order in which well-posed derivations are added to an engine, they can be added, and a run
gives the same form up to the order of its entries: the solution, if there may be a pass. -/
theorem run_perm {ds ds' : List Derivation} (h : WellPosed fs external ds) (hp : ds.Perm ds') (maxPasses : Nat)
    (es : Entries) (j j' : Journal) :
    ds.foldlM (Derivation.add fs) [] = .ok ds ∧ ds'.foldlM (Derivation.add fs) [] = .ok ds' ∧
      ∃ r r' gs gs', ((run fs external maxPasses ds (.map es)).run.run j).1 = .ok r ∧
        ((run fs external maxPasses ds' (.map es)).run.run j').1 = .ok r' ∧
        r.value = .map gs ∧ r'.value = .map gs' ∧ SameEntries gs gs' ∧
        (maxPasses ≠ 0 → Settled fs external ds es gs) := by
  have h' := h.perm hp
  obtain ⟨r, hr, gs, hgs, hsettled⟩ := h.run_settled maxPasses es j
  obtain ⟨r', hr', gs', hgs', hsettled'⟩ := h'.run_settled maxPasses es j'
  refine ⟨h.foldlM_add, h'.foldlM_add, r, r', gs, gs', hr, hr', hgs, hgs', ?_, fun hpos => by rwa [if_neg hpos] at hsettled⟩
  by_cases hzero : maxPasses = 0
  · rw [if_pos hzero] at hsettled hsettled'
    rw [hsettled, hsettled']
    exact fun _ => rfl
  · rw [if_neg hzero] at hsettled hsettled'
    obtain ⟨order, -, hmem, hordered⟩ := order_sound h.sync h.targets h.resolves h.acyclic
    have hw : ∀ d ∈ order, d.Wired fs external := fun d hd => h.wired d ((hmem d).mp hd)
    exact (hsettled.of_mem fun d => (hmem d).symm).unique hw hordered
      (hsettled'.of_mem fun d => hp.mem_iff.symm.trans (hmem d).symm)

/-- A derivation that copies a field. -/
def copying (target source : String) : Derivation where
  target
  source := .expression (.text ("formValue." ++ source))
  condition := none
  dependsOn := []
  debounceMs := none

theorem copying_wired {source : String} (hf : (copying t source).OfField)
    (hdeps : (copying t source).dependencies = .ok [source]) (hk : Path.keys source = .ok [.name source])
    (hroot : Expr.Reference.root source = source) (hne : source ≠ allFields) (hown : overlaps source t = false)
    (hout : ∀ es : Entries, (copying t source).outcome fs external (.map es) =
      .ok (some ((Table.get? es (.name source)).getD .undefined))) : (copying t source).Wired fs external where
  field := hf
  dotted := ⟨[source], hdeps, fun p hp => by
    obtain rfl := List.mem_singleton.mp hp
    exact ⟨hne, .name p, [], hk, hroot.symm⟩⟩
  outcome es gs h := by
    have hread (es : Entries) : (Value.map es).getPath [.name source] = (Table.get? es (.name source)).getD .undefined := by
      have hkey : Value.readKey es (.name source) = .name source := rfl
      rw [Value.getPath, Value.walk?, Value.step?_map, hkey]
      cases Table.get? es (.name source) <;> rfl
    rw [hout, hout, ← hread, ← hread, h [source] hdeps source List.mem_cons_self _ hk]
  notOwn := by
    rintro ⟨deps, hdeps', p, hp, -, ho⟩
    obtain rfl := Except.ok.inj (hdeps.symm.trans hdeps')
    obtain rfl := List.mem_singleton.mp hp
    exact absurd (hown.symm.trans ho) Bool.false_ne_true

/-- A label that copies the total, which copies the price. -/
theorem copies_wellPosed : WellPosed {} .undefined [copying "label" "total", copying "total" "price"] where
  sync := by decide
  registered := by
    rintro d hd name hname
    simp only [List.mem_cons, List.not_mem_nil, or_false] at hd
    rcases hd with rfl | rfl <;> cases hname
  targets := by decide
  wired := by
    intro d hd
    simp only [List.mem_cons, List.not_mem_nil, or_false] at hd
    rcases hd with rfl | rfl
    · exact copying_wired ⟨rfl, rfl⟩ rfl rfl rfl (by decide) (by decide) fun _ => rfl
    · exact copying_wired ⟨rfl, rfl⟩ rfl rfl rfl (by decide) (by decide) fun _ => rfl
  acyclic := by
    intro g hg
    have hgraph : graph [copying "label" "total", copying "total" "price"] = .ok [("label", ["total"]), ("total", [])] := rfl
    obtain rfl := Except.ok.inj (hgraph.symm.trans hg)
    refine Graph.acyclic_of_rank (fun n => if n = "label" then 1 else 0) fun a b hab => ?_
    obtain ⟨rfl, rfl⟩ : a = "label" ∧ b = "total" := by
      unfold Graph.Leads Graph.successors Table.get? at hab
      by_cases hl : "label" = a
      · subst hl
        simpa using hab
      · by_cases ht : "total" = a <;> simp [hl, ht] at hab
    decide

/-- The total and the label are the price, whichever derivation was added first. -/
theorem run_perm_copies : ([copying "label" "total", copying "total" "price"]).Perm
      [copying "total" "price", copying "label" "total"] ∧
    ∃ r r' gs gs', ((run {} .undefined 10 [copying "label" "total", copying "total" "price"]
          (.map [(.name "price", .int 3)])).run.run {}).1 = .ok r ∧
        ((run {} .undefined 10 [copying "total" "price", copying "label" "total"]
          (.map [(.name "price", .int 3)])).run.run {}).1 = .ok r' ∧
        r.value = .map gs ∧ r'.value = .map gs' ∧ SameEntries gs gs' ∧
        Settled {} .undefined [copying "label" "total", copying "total" "price"] [(.name "price", .int 3)] gs := by
  have hp : ([copying "label" "total", copying "total" "price"]).Perm
      [copying "total" "price", copying "label" "total"] := .swap _ _ _
  obtain ⟨-, -, r, r', gs, gs', hr, hr', hgs, hgs', hsame, hsettled⟩ :=
    run_perm copies_wellPosed hp 10 [(.name "price", .int 3)] {} {}
  exact ⟨hp, r, r', gs, gs', hr, hr', hgs, hgs', hsame, hsettled (by decide)⟩

end Derivation
end FormRules
