import FormRules.Proofs.Condition.Exchange
import FormRules.Proofs.Form.Frame
import FormRules.Proofs.Form.Timely
import FormRules.Proofs.Inquiry.Slot

/-!
# What tests settle to

A test that has to be quiet answers with the result that has most recently stayed the same for as long as it has to
be quiet. A result that replaces another one begins a quiet period; if it is replaced again before the period is
over, it is as if it had never been. This holds of each field by itself, on a loop that is in time.
-/

namespace FormRules

/-! ## Results that change -/

/-- The results that a test changed to, with their moments, the latest first; the first result is a change. -/
def changes : List TestIncident → List (Int × Bool)
  | [] => []
  | e :: older =>
    match e.event with
    | .computed b _ =>
      if (changes older).head?.map (·.2) = some b then changes older else (e.moment, b) :: changes older
    | .answered _ => changes older

/-- By a moment, a result has most recently stayed the same for some milliseconds; before any has, it is `false`. A
result that has stayed the same for just as long may count or not. -/
inductive Settles (ms : Int) : List (Int × Bool) → Int → Bool → Prop
  | never (now : Int) : Settles ms [] now false
  | stayed {m now : Int} {b : Bool} {cs : List (Int × Bool)} (h : m + max ms 0 ≤ now) : Settles ms ((m, b) :: cs) now b
  | brief {m now : Int} {b r : Bool} {cs : List (Int × Bool)} (h : now ≤ m + max ms 0) (hr : Settles ms cs m r) :
    Settles ms ((m, b) :: cs) now r

section
variable {e : TestIncident} {older : List TestIncident} {b : Bool} {ms : Int}

theorem changes_answered (h : e.event = .answered b) : changes (e :: older) = changes older := by rw [changes, h]

theorem changes_same (h : e.event = .computed b ms) (hb : (changes older).head?.map (·.2) = some b) :
    changes (e :: older) = changes older := by
  rw [changes, h]
  exact if_pos hb

theorem changes_new (h : e.event = .computed b ms) (hb : (changes older).head?.map (·.2) ≠ some b) :
    changes (e :: older) = (e.moment, b) :: changes older := by
  rw [changes, h]
  exact if_neg hb

end

/-- What happens to a test that has to be quiet for some milliseconds, on a loop that is in time. -/
structure TestIncident.Regular (ms : Int) (e : TestIncident) : Prop where
  onTime : e.onTime = true
  quietMs : ∀ b q, e.event = .computed b q → q = ms

/-- An answer is what the test has settled to. -/
def TestIncident.Sound (ms : Int) (e : TestIncident) (older : List TestIncident) : Prop :=
  ∀ r, e.event = .answered r → Settles ms (changes older) e.moment r

theorem Task.isTestQuiet_self (k : SlotKey) : (testQuiet k).isTestQuiet k = true := decide_eq_true rfl

theorem Task.isTestQuiet_of_ne {k : SlotKey} {t : Task} (h : t ≠ .testQuiet k) : t.isTestQuiet k = false := by
  cases t with
  | testQuiet j => exact decide_eq_false fun hj => h (hj ▸ rfl)
  | _ => rfl

theorem Task.eq_of_isTestQuiet {k : SlotKey} {t : Task} (h : t.isTestQuiet k = true) : t = .testQuiet k := by
  cases t with
  | testQuiet j => rw [of_decide_eq_true h]
  | _ => cases h

namespace Compiled
variable {c d : Compiled} {fs : Functions} {key : String} {s t : Test} {m n : Int}

/-- Every test that has to be quiet is compiled under a key that tells for how long. -/
def QuietKeyed (c : Compiled) : Prop := ∀ key t ms, .delayed key t ms ∈ c.functions → key = testKey t (some ms)

theorem QuietKeyed.unique (h : c.QuietKeyed) (hs : .delayed key s m ∈ c.functions)
    (ht : .delayed key t n ∈ c.functions) : m = n :=
  Option.some.inj (testKey_cancel ((h key s m hs).symm.trans (h key t n ht))).1

theorem QuietKeyed.intern (h : c.QuietKeyed) {kind : LogicKind} {l : LogicFunction}
    (hl : ∀ key t ms, l = .delayed key t ms → key = testKey t (some ms)) : (c.intern kind key l).2.QuietKeyed := by
  unfold Compiled.intern
  split
  · exact h
  · intro key' t ms hmem
    obtain hmem | hmem := List.mem_append.mp hmem
    · exact h key' t ms hmem
    · exact hl key' t ms (List.mem_singleton.mp hmem).symm

theorem QuietKeyed.grows (h : c.QuietKeyed) (hg : c.Grows fs d) : d.QuietKeyed := by
  cases hg with
  | condition q cond =>
    cases cond with
    | inquiry i => exact h.intern nofun
    | test t =>
      rw [condition_test]
      refine h.intern fun key s ms hl => ?_
      cases q <;> cases hl
      rfl
  | value e => exact h.intern nofun
  | validator hnew hv => exact h

end Compiled

/-! ## The state of a test -/

/-- What the state of a test has of its changes: none, or the last one has stayed, or the end of its quiet period is
the only one of the test that is pending, and what it is settled to is older. -/
inductive Debounced.Awaits (ms : Int) (k : SlotKey) (d : Debounced (Option Bool)) (now : Int) :
    List (Int × Bool) → Multiset (Appointment Task) → Prop
  | never (hs : d.source = none) (hr : d.settled = some false) (ht : d.timer = none) : Awaits ms k d now [] 0
  | elapsed {m : Int} {b : Bool} {cs : List (Int × Bool)} (hs : d.source = some b) (hr : d.settled = some b)
    (ht : d.timer = none) (hm : m + max ms 0 ≤ now) : Awaits ms k d now ((m, b) :: cs) 0
  | quiet {m : Int} {b r : Bool} {cs : List (Int × Bool)} {n : Nat} (hs : d.source = some b) (hr : d.settled = some r)
    (ht : d.timer = some n) (hq : Settles ms cs m r) :
    Awaits ms k d now ((m, b) :: cs) {⟨m + max ms 0, n, .testQuiet k⟩}

namespace Debounced.Awaits
variable {ms now : Int} {k : SlotKey} {d : Debounced (Option Bool)} {cs : List (Int × Bool)}
  {waits : Multiset (Appointment Task)}

theorem later {moment : Int} (h : d.Awaits ms k now cs waits) (hm : now ≤ moment) : d.Awaits ms k moment cs waits := by
  cases h with
  | never hs hr ht => exact .never hs hr ht
  | elapsed hs hr ht hq => exact .elapsed hs hr ht (hq.trans hm)
  | quiet hs hr ht hq => exact .quiet hs hr ht hq

theorem source_eq (h : d.Awaits ms k now cs waits) : d.source = cs.head?.map (·.2) := by
  cases h with
  | never hs hr ht => exact hs
  | elapsed hs hr ht hq => exact hs
  | quiet hs hr ht hq => exact hs

/-- While the end of no quiet period is overdue, the state is what the test has settled to. -/
theorem settles (h : d.Awaits ms k now cs waits) (hw : ∀ a ∈ waits, now ≤ a.due) :
    ∃ r, d.settled = some r ∧ Settles ms cs now r := by
  cases h with
  | never hs hr ht => exact ⟨false, hr, .never now⟩
  | elapsed hs hr ht hq => exact ⟨_, hr, .stayed hq⟩
  | quiet hs hr ht hq => exact ⟨_, hr, .brief (hw _ (Multiset.mem_singleton_self _)) hq⟩

end Debounced.Awaits

namespace Form
section
variable {f g : Form} {j k : SlotKey} {ms : Int} {d : Debounced (Option Bool)} {a : Appointment Task}
  {t : Schedule Task}

/-- What has happened to a test at one field, the latest first. -/
def testPast (f : Form) (k : SlotKey) : List TestIncident := f.tests.filter (·.slot = k)

/-- The ends of quiet periods of a test that are pending. -/
def testWaits (f : Form) (k : SlotKey) : Multiset (Appointment Task) := f.schedule.waiting (Task.isTestQuiet k)

/-- What a form keeps of a test is what it should be after what has happened. -/
structure TestSound (f : Form) (ms : Int) (k : SlotKey) : Prop where
  unopened : Table.get? f.delayed k = none → f.testPast k = [] ∧ f.testWaits k = 0
  opened : ∀ d, Table.get? f.delayed k = some d → d.Awaits ms k f.schedule.now (changes (f.testPast k)) (f.testWaits k)
  answered : Each (TestIncident.Sound ms) (f.testPast k)

/-! ## Steps that are none of a test -/

theorem TestSound.elsewhere (h : f.TestSound ms k) (hpast : g.testPast k = f.testPast k)
    (hd : Table.get? g.delayed k = Table.get? f.delayed k) (hs : f.KeepsTasks (Task.isTestQuiet k) g) :
    g.TestSound ms k := by
  have hwaits : g.testWaits k = f.testWaits k := hs.waiting
  refine ⟨?_, ?_, ?_⟩
  · rw [hd, hpast, hwaits]
    exact h.unopened
  · rw [hd, hpast, hwaits]
    exact fun d hget => (h.opened d hget).later hs.now_le
  · rw [hpast]
    exact h.answered

theorem testPast_testFollowed_of_ne (h : j ≠ k) (d : Debounced (Option Bool)) (b : Bool) (ms : Int) :
    (f.testFollowed j d b ms).testPast k = f.testPast k := by
  simp [testPast, testFollowed, h]

theorem testPast_testFollowed (d : Debounced (Option Bool)) (b : Bool) (ms : Int) :
    (f.testFollowed k d b ms).testPast k = ⟨k, f.schedule.now, f.isOnTime k, .answered (d.settled.getD false)⟩ ::
      ⟨k, f.schedule.now, f.isOnTime k, .computed b ms⟩ :: f.testPast k := by
  simp [testPast, testFollowed]

theorem get?_delayed_testFollowed_of_ne (h : j ≠ k) (d : Debounced (Option Bool)) (b : Bool) (ms : Int) :
    Table.get? (f.testFollowed j d b ms).delayed k = Table.get? f.delayed k := by
  refine testTold_cases (P := fun g => Table.get? g.delayed k = Table.get? f.delayed k) rfl ?_
  unfold testChanged withTest
  dsimp only
  rw [Table.get?_put_of_ne h.symm]
  cases d.timer <;> rfl

theorem now_testTold (d : Debounced (Option Bool)) (b : Bool) (ms : Int) :
    (f.testTold k d b ms).schedule.now = f.schedule.now :=
  testTold_cases (P := fun g => g.schedule.now = f.schedule.now) rfl (f.withoutTimer_now d.timer)

/-- On a loop that is in time, no end of a quiet period of the test is overdue. -/
theorem of_isOnTime (h : f.isOnTime k = true) (ha : a ∈ f.testWaits k) : f.schedule.now ≤ a.due := by
  obtain ⟨ha, hk⟩ := Schedule.mem_waiting.mp ha
  rw [isOnTime, Bool.and_eq_true, List.all_eq_true] at h
  simpa [hk] using h.2 a ha

/-! ## The steps of a test -/

theorem testWaits_withoutTimer {now : Int} {cs : List (Int × Bool)} (h : d.Awaits ms k now cs (f.testWaits k)) :
    (f.withoutTimer d.timer).testWaits k = 0 := by
  generalize hw : f.testWaits k = w at h
  cases h with
  | never hs hr ht =>
    rw [ht]
    exact hw
  | elapsed hs hr ht hq =>
    rw [ht]
    exact hw
  | quiet hs hr ht hq =>
    rw [ht]
    refine (Schedule.waiting_cancel f.schedule _ _).trans ?_
    rw [show f.schedule.waiting (Task.isTestQuiet k) = _ from hw]
    simp

/-- A change of the result begins a quiet period, the end of which is the only one that is pending. -/
theorem testWaits_testChanged {now : Int} {cs : List (Int × Bool)} (h : d.Awaits ms k now cs (f.testWaits k))
    (b : Bool) : (f.testChanged k d b ms).testWaits k =
      {⟨f.schedule.now + max ms 0, (f.withoutTimer d.timer).schedule.issued, .testQuiet k⟩} := by
  refine (Schedule.waiting_after (Task.isTestQuiet_self k)).trans ?_
  rw [show (f.withoutTimer d.timer).schedule.waiting _ = 0 from testWaits_withoutTimer h, withoutTimer_now]
  rfl

/-- A test that is told its result keeps up with the changes, and is still settled to what it was settled to. -/
theorem awaits_testTold {past : List TestIncident} {e : TestIncident} {b r : Bool}
    (h : d.Awaits ms k f.schedule.now (changes past) (f.testWaits k)) (hd : Table.get? f.delayed k = some d)
    (hr : d.settled = some r) (hq : Settles ms (changes past) f.schedule.now r) (he : e.event = .computed b ms)
    (hm : e.moment = f.schedule.now) : Settles ms (changes (e :: past)) f.schedule.now r ∧
      ∃ d', Table.get? (f.testTold k d b ms).delayed k = some d' ∧
        d'.Awaits ms k f.schedule.now (changes (e :: past)) ((f.testTold k d b ms).testWaits k) := by
  by_cases hb : d.source = some b
  -- the same result again is no change, and the quiet period that has begun goes on
  · rw [changes_same he (h.source_eq.symm.trans hb), show f.testTold k d b ms = f from if_pos hb]
    exact ⟨hq, d, hd, h⟩
  · rw [changes_new he fun hsame => hb (h.source_eq.trans hsame), hm,
      show f.testTold k d b ms = f.testChanged k d b ms from if_neg hb]
    refine ⟨.brief (le_add_of_nonneg_right (le_max_right ms 0)) hq, _, Table.get?_put_self, ?_⟩
    rw [testWaits_testChanged h b]
    exact .quiet rfl hr rfl hq

/-- A test is told its result and answers. -/
theorem TestSound.followed (h : f.TestSound ms k) (hd : Table.get? f.delayed k = some d) (hon : f.isOnTime k = true)
    (b : Bool) : (f.testFollowed k d b ms).TestSound ms k := by
  have hawaits := h.opened d hd
  obtain ⟨r, hr, hsettles⟩ := hawaits.settles fun a ha => of_isOnTime hon ha
  obtain ⟨hstill, d', hd', hawaits'⟩ := awaits_testTold (b := b)
    (e := ⟨k, f.schedule.now, f.isOnTime k, .computed b ms⟩) hawaits hd hr hsettles rfl rfl
  refine ⟨fun hnone => absurd (hd'.symm.trans hnone) nofun, fun u hu => ?_, ?_⟩
  · obtain rfl := Option.some.inj (hd'.symm.trans hu)
    rw [testPast_testFollowed, changes_answered rfl,
      show (f.testFollowed k d b ms).schedule.now = _ from now_testTold d b ms]
    exact hawaits'
  · rw [testPast_testFollowed]
    refine .cons (fun q hq => ?_) (.cons ?_ h.answered)
    · obtain rfl := TestEvent.answered.inj hq
      rw [hr]
      exact hstill
    · intro q hq
      cases hq

/-- The quiet period of a test is over: the last change has stayed. -/
theorem TestSound.settled (h : f.TestSound ms k) (hd : Table.get? f.delayed k = some d) (ht : f.schedule.Takes a t)
    (ha : a.task = .testQuiet k) : ((f.onSchedule t).testSettled k d).TestSound ms k := by
  have hw : f.testWaits k = a ::ₘ (f.onSchedule t).testWaits k := ht.waiting (by rw [ha]; exact Task.isTestQuiet_self k)
  have hawaits := h.opened d hd
  rw [hw] at hawaits
  generalize hcs : changes (f.testPast k) = cs at hawaits
  generalize hl : a ::ₘ (f.onSchedule t).testWaits k = w at hawaits
  cases hawaits with
  | never | elapsed => exact absurd hl Multiset.cons_ne_zero
  | @quiet m b r cs n hs hr htimer hq =>
    -- the test waits for one end only, so this is the one
    obtain ⟨rfl, hnone⟩ := (Multiset.cons_eq_cons.mp hl).resolve_right fun ⟨_, cs, _, hcs⟩ =>
      absurd hcs.symm Multiset.cons_ne_zero
    refine ⟨fun hnone => absurd (Table.get?_put_self.symm.trans hnone) nofun, fun d' hd' => ?_, h.answered⟩
    obtain rfl := Option.some.inj (Table.get?_put_self.symm.trans hd')
    show Debounced.Awaits ms k _ t.now (changes (f.testPast k)) ((f.onSchedule t).testWaits k)
    rw [hnone, hcs]
    have hsource : (d.settle fun a b => a = b).1.source = some b := by
      unfold Debounced.settle
      split
      · exact hs
      · exact hs
    have hsettled : (d.settle fun a b => a = b).1.settled = some b := by
      unfold Debounced.settle
      split
      · next heq => exact (of_decide_eq_true heq).trans hs
      · exact hs
    exact .elapsed hsource hsettled (Debounced.settle_timer _ _) ht.due_le

/-! ## All tests -/

/-- Every test is as it should be that has been told on a loop in time, to be quiet for as long as it was compiled
to be. -/
structure Settling (f : Form) : Prop where
  timely : f.Timely
  keyed : f.compiled.QuietKeyed
  told : ∀ e ∈ f.tests, e.onTime = true → ∀ b ms, e.event = .computed b ms →
    ∃ t, .delayed e.slot.function t ms ∈ f.compiled.functions
  sound : ∀ k ms, (∀ e ∈ f.testPast k, e.Regular ms) → f.TestSound ms k

theorem IsLate.not_regular (h : f.IsLate k) : ¬ ∀ e ∈ f.testPast k, e.Regular ms := by
  obtain ⟨e, he, hk, hlate⟩ := h
  intro hall
  have hregular := hall e (List.mem_filter.mpr ⟨he, decide_eq_true hk⟩)
  exact absurd (hlate.symm.trans hregular.onTime) nofun

namespace Settling

theorem of_isFresh (h : f.IsFresh) : f.Settling where
  timely := .of_isFresh h
  keyed key t ms hmem := by rw [h.compiled] at hmem; cases hmem
  told e he := by rw [h.tests] at he; cases he
  sound k ms _ := {
    unopened := fun _ => by simp [testPast, h.tests, testWaits, Schedule.waiting, Schedule.collect, h.pending]
    opened := fun d hd => by rw [h.delayed] at hd; cases hd
    answered := by simp [testPast, h.tests, Each] }

theorem told_aside (h : f.Settling) (ha : Aside f g) : ∀ e ∈ g.tests, e.onTime = true → ∀ b ms,
    e.event = .computed b ms → ∃ t, .delayed e.slot.function t ms ∈ f.compiled.functions := by
  have same (htests : g.tests = f.tests) : ∀ e ∈ g.tests, e.onTime = true → ∀ b ms,
      e.event = .computed b ms → ∃ t, .delayed e.slot.function t ms ∈ f.compiled.functions := by
    rw [htests]
    exact h.told
  cases ha with
  | testFollowed ht hd b =>
    refine List.forall_mem_cons.mpr ⟨nofun, List.forall_mem_cons.mpr ⟨fun _ b' ms' he => ?_, h.told⟩⟩
    cases he
    exact ⟨_, ht⟩
  | testNoted => exact List.forall_mem_cons.mpr ⟨nofun, h.told⟩
  | testCancelled => exact same (by unfold withoutTimer; split <;> rfl)
  | streamCancelled => exact same (by unfold withoutTimer; split <;> rfl)
  | _ => exact same rfl

/-- Asides leave a test alone, open it, tell it its result or end its quiet period, or the test is late. -/
theorem sound_aside (h : f.Settling) (ha : Aside f g) (k : SlotKey) (ms : Int)
    (hregular : ∀ e ∈ g.testPast k, e.Regular ms) : g.TestSound ms k := by
  have alone (hpast : g.testPast k = f.testPast k) (hd : Table.get? g.delayed k = Table.get? f.delayed k)
      (hs : f.KeepsTasks (Task.isTestQuiet k) g) : g.TestSound ms k :=
    (h.sound k ms (hpast ▸ hregular)).elsewhere hpast hd hs
  have owned {n : Nat} {j : SlotKey} {d : Debounced (Option Bool)} (hd : Table.get? f.delayed j = some d)
      (hn : d.timer = some n) := h.timely.tests hd hn
  have apart {j : SlotKey} (hj : j ≠ k) : (Task.testQuiet j).isTestQuiet k = false := decide_eq_false hj
  -- a step of a late test is against the regular past; a step of another test leaves this one alone
  cases ha with
  | noted => exact alone rfl rfl (.refl _ _)
  | ticked hnow => exact alone rfl rfl ⟨hnow, rfl⟩
  | served => exact alone rfl rfl (.refl _ _)
  | booked delay ht hk => exact alone rfl rfl (Schedule.spares_after _ _ (hk k))
  | @testOpened j hnone =>
    by_cases hj : j = k
    · subst hj
      have hsound := h.sound j ms hregular
      obtain ⟨hpast, hwaits⟩ := hsound.unopened hnone
      refine ⟨fun hnone => absurd (Table.get?_put_self.symm.trans hnone) nofun, fun d hd => ?_, hsound.answered⟩
      obtain rfl := Option.some.inj (Table.get?_put_self.symm.trans hd)
      show Debounced.Awaits ms j _ _ (changes (f.testPast j)) (f.testWaits j)
      rw [hpast, hwaits]
      exact .never rfl rfl rfl
    · exact alone rfl (Table.get?_put_of_ne (Ne.symm hj)) (.refl _ _)
  | @testFollowed j d t ms' ht hd b =>
    by_cases hj : j = k
    · subst hj
      rw [testPast_testFollowed] at hregular
      obtain ⟨-, hregular⟩ := List.forall_mem_cons.mp hregular
      obtain ⟨hcomputed, hpast⟩ := List.forall_mem_cons.mp hregular
      obtain rfl := hcomputed.quietMs b ms' rfl
      exact (h.sound j ms' hpast).followed hd hcomputed.onTime b
    · refine alone (testPast_testFollowed_of_ne hj d b ms') (get?_delayed_testFollowed_of_ne hj d b ms') ?_
      exact testTold_cases (.refl _ _) (spares_testChanged (apart hj) (fun n hn => owned hd hn) b ms')
  | @testSettled a t j d ht ha hd =>
    by_cases hj : j = k
    · subst hj
      exact (h.sound j ms hregular).settled hd ht ha
    · exact alone rfl (Table.get?_put_of_ne (Ne.symm hj)) (ht.spares (ha ▸ apart hj))
  | testNoted j e =>
    by_cases hj : j = k
    · have hlate : (f.testNoted j false e).IsLate k := ⟨_, List.mem_cons_self, hj, rfl⟩
      exact absurd hregular hlate.not_regular
    · exact alone (List.filter_cons_of_neg (by simpa using hj)) rfl (.refl _ _)
  | @testCancelled j d hl hd =>
    by_cases hj : j = k
    · subst hj
      have hlate : (f.withoutTimer d.timer).IsLate j := by cases d.timer <;> exact hl
      exact absurd hregular hlate.not_regular
    · refine alone ?_ ?_ (spares_withoutTimer (apart hj) fun n hn => owned hd hn)
      · cases d.timer <;> rfl
      · cases d.timer <;> rfl
  | @testPut j d hl ht =>
    by_cases hj : j = k
    · subst hj
      exact absurd hregular (show (f.withTest j d).IsLate j from hl).not_regular
    · exact alone rfl (Table.get?_put_of_ne (Ne.symm hj)) (.refl _ _)
  | @streamCancelled n s hs =>
    refine alone ?_ ?_ (spares_withoutTimer rfl fun n hn => h.timely.streams hs hn)
    · cases s.lane.timer <;> rfl
    · cases s.lane.timer <;> rfl
  | streamPut => exact alone rfl rfl (.refl _ _)
  | streamTimed n s root ms' => exact alone rfl rfl (Schedule.spares_after _ _ rfl)
  | @taken a t ht ha hk =>
    refine alone rfl rfl (ht.spares ?_)
    cases hq : a.task.isTestQuiet k with
    | false => rfl
    | true =>
      have hnone := ((h.sound k ms hregular).unopened (hk k (Task.eq_of_isTestQuiet hq))).2
      exact absurd ((ht.waiting hq).symm.trans hnone) Multiset.cons_ne_zero

theorem aside (h : f.Settling) (ha : Aside f g) : g.Settling := by
  have hc := ha.compiled
  refine ⟨h.timely.aside ha, ?_, ?_, h.sound_aside ha⟩
  · rw [hc]
    exact h.keyed
  · rw [hc]
    exact h.told_aside ha

theorem move (h : f.Settling) (hm : Move f g) : g.Settling := by
  obtain ha | ⟨c, hc, rfl⟩ | hcalm := hm.calm_cases
  · exact h.aside ha
  · refine ⟨h.timely.move hm, h.keyed.grows hc, fun e he hon b ms hb => ?_, fun k ms hregular => ?_⟩
    · obtain ⟨t, ht⟩ := h.told e he hon b ms hb
      exact ⟨t, hc.mem ht⟩
    · exact (h.sound k ms hregular).elsewhere rfl rfl (.refl _ _)
  · have parts (f : Form) : f.tests = f.calm.tests ∧ f.delayed = f.calm.delayed ∧ f.compiled = f.calm.compiled :=
      ⟨rfl, rfl, rfl⟩
    obtain ⟨htests, hdelayed, hcompiled⟩ := parts g
    rw [hcalm, ← (parts f).1] at htests
    rw [hcalm, ← (parts f).2.1] at hdelayed
    rw [hcalm, ← (parts f).2.2] at hcompiled
    refine ⟨h.timely.move hm, ?_, ?_, fun k ms hregular => ?_⟩
    · rw [hcompiled]
      exact h.keyed
    · rw [htests, hcompiled]
      exact h.told
    · obtain ha | hs := hm.spares h.timely (q := Task.isTestQuiet k) fun t ht =>
        Task.isTestQuiet_of_ne (by rintro rfl; exact ht rfl)
      · exact h.sound_aside ha k ms hregular
      · have hpast : g.testPast k = f.testPast k := congrArg (List.filter _) htests
        exact (h.sound k ms (hpast ▸ hregular)).elsewhere hpast (congrArg (Table.get? · k) hdelayed) hs

theorem turn (h : f.Settling) (ht : Turn f g) : g.Settling := by
  have same (hg : g.Timely) (hc : g.compiled = f.compiled) (htests : g.tests = f.tests) (hd : g.delayed = f.delayed)
      (hs : g.schedule = f.schedule) : g.Settling := by
    refine ⟨hg, hc ▸ h.keyed, ?_, fun k ms hregular => ?_⟩
    · rw [hc, htests]
      exact h.told
    · have hpast : g.testPast k = f.testPast k := congrArg (List.filter _) htests
      refine (h.sound k ms (hpast ▸ hregular)).elsewhere hpast (congrArg (Table.get? · k) hd) ?_
      unfold KeepsTasks
      rw [hs]
      exact .refl _ _
  have timely := h.timely.turn ht
  cases ht with
  | move hm => exact h.move hm
  | wrote | adjusted | attached | streamed => exact same timely rfl rfl rfl rfl

theorem of_reachable (h : f.Reachable) : f.Settling :=
  h.induct (fun _ => of_isFresh) (fun _ _ ht h => h.turn ht) fun _ schema h =>
    ⟨h.timely.registered schema, h.keyed, h.told, fun k ms hregular =>
      (h.sound k ms hregular).elsewhere rfl rfl (.refl _ _)⟩

end Settling
end

/-!
## What tests answer

Every call of a test that has to be quiet answers with what the test has settled to by then, which the results of
that test at that field tell alone.
-/

open Live
variable {f : Form} {key : String} {t : Test} {ms : Int}

/-- Opening a test leaves it with a state, and everything else as it is. -/
theorem run_openTest (f : Form) (k : SlotKey) : ∃ delayed d,
    (openTest k).run.run f = (.ok (), { f with delayed }) ∧ Table.get? delayed k = some d := by
  unfold openTest
  rw [run_get_bind]
  cases hd : Table.get? f.delayed k with
  | none =>
    rw [if_pos (by simp [Table.has, hd])]
    exact ⟨_, _, rfl, Table.get?_put_self⟩
  | some d =>
    rw [if_neg (by simp [Table.has, hd])]
    exact ⟨f.delayed, d, rfl, hd⟩

/-- On a loop, a call computes the test, tells its result, and answers. -/
theorem run_call_delayed (hl : f.hasLoop = true) (notify : Source → Live Unit) (key : String) (t : Test) (ms : Int)
    (root : Value) (field : List Key) : ∃ b r g,
    (call notify (.delayed key t ms) root field).run.run f = (.ok r, g) ∧ result (testHolds t root field) f = .ok b ∧
      g.testPast ⟨key, field⟩ = ⟨⟨key, field⟩, f.schedule.now, f.isOnTime ⟨key, field⟩, .answered r⟩ ::
        ⟨⟨key, field⟩, f.schedule.now, f.isOnTime ⟨key, field⟩, .computed b ms⟩ :: f.testPast ⟨key, field⟩ := by
  obtain ⟨delayed, d, hopened, hd⟩ := run_openTest f ⟨key, field⟩
  obtain ⟨b, reading, journal, hb, hholds⟩ : ∃ b reading journal, result (testHolds t root field) f = .ok b ∧
      (testHolds t root field).run.run { f with delayed } = (.ok b, { f with delayed, reading, journal }) :=
    ⟨_, _, _, rfl, rfl⟩
  let g : Form := { f with delayed, reading, journal }
  obtain ⟨tracked, hfollow⟩ := @run_followTest notify ⟨key, field⟩ g d hl hd b ms
  have hpast := testPast_testFollowed (f := g) (k := ⟨key, field⟩) d b ms
  refine ⟨b, d.settled.getD false, { g.testFollowed ⟨key, field⟩ d b ms with reading := tracked }, ?_, hb, hpast⟩
  show (openTest ⟨key, field⟩ >>= fun _ => testHolds t root field >>= fun b =>
    followTest notify ⟨key, field⟩ b ms).run.run f = _
  rw [run_bind, show result (openTest _) f = _ from congrArg Prod.fst hopened,
    show after (openTest _) f = _ from congrArg Prod.snd hopened]
  dsimp only
  rw [run_bind, show result (testHolds t root field) _ = _ from congrArg Prod.fst hholds,
    show after (testHolds t root field) _ = _ from congrArg Prod.snd hholds]
  exact hfollow

/-- On a loop that is in time with the test at a field, every answer is what the test has settled to there: the result
that has most recently stayed the same for as long as the test has to be quiet, and `false` before any has. A call
always answers; its own result is the last one that counts, and nothing else that happens to the form does. -/
theorem delayed_answers_settled (h : f.Reachable) (hf : .delayed key t ms ∈ f.compiled.functions) (field : List Key)
    (hon : ∀ e ∈ f.testPast ⟨key, field⟩, e.onTime = true) :
    (∀ newer e older r, f.testPast ⟨key, field⟩ = newer ++ e :: older → e.event = .answered r →
      Settles ms (changes older) e.moment r) ∧
    (f.isOnTime ⟨key, field⟩ = true → ∀ root, ∃ b r g,
      (call notify (.delayed key t ms) root field).run.run f = (.ok r, g) ∧ result (testHolds t root field) f = .ok b ∧
      g.testPast ⟨key, field⟩ = ⟨⟨key, field⟩, f.schedule.now, true, .answered r⟩ ::
        ⟨⟨key, field⟩, f.schedule.now, true, .computed b ms⟩ :: f.testPast ⟨key, field⟩ ∧
      Settles ms (changes (⟨⟨key, field⟩, f.schedule.now, true, .computed b ms⟩ :: f.testPast ⟨key, field⟩))
        f.schedule.now r) := by
  have hsettling := Settling.of_reachable h
  have hregular : ∀ e ∈ f.testPast ⟨key, field⟩, e.Regular ms := by
    intro e he
    obtain ⟨hmem, hk⟩ := List.mem_filter.mp he
    refine ⟨hon e he, fun b q hb => ?_⟩
    obtain ⟨u, hu⟩ := hsettling.told e hmem (hon e he) b q hb
    rw [of_decide_eq_true hk] at hu
    exact hsettling.keyed.unique hu hf
  constructor
  · intro newer e older r hpast hr
    have hanswered := (hsettling.sound _ ms hregular).answered
    rw [hpast] at hanswered
    exact hanswered.of_append r hr
  · intro htime root
    have hl : f.hasLoop = true := by
      rw [isOnTime, Bool.and_eq_true] at htime
      exact htime.1
    obtain ⟨b, r, g, hrun, hb, hpast⟩ := run_call_delayed hl notify key t ms root field
    rw [htime] at hpast
    refine ⟨b, r, g, hrun, hb, hpast, ?_⟩
    have hg : (after (call notify (.delayed key t ms) root field) f).Settling :=
      (call_moves notify_moves hf root field).keeps (fun _ _ hm h => h.move hm) hsettling
    rw [show after _ f = g from congrArg Prod.snd hrun] at hg
    have hafter : ∀ e ∈ g.testPast ⟨key, field⟩, e.Regular ms := by
      rw [hpast]
      refine List.forall_mem_cons.mpr ⟨⟨rfl, fun b q hq => ?_⟩,
        List.forall_mem_cons.mpr ⟨⟨rfl, fun b q hq => ?_⟩, hregular⟩⟩
      · cases hq
      · cases hq
        rfl
    have hanswered := (hg.sound _ ms hafter).answered
    rw [hpast] at hanswered
    exact hanswered.1 r rfl

/-! ## An example: a field that is typed into -/

/-- Whether a field has a certain value. -/
def spelled : Test := .fieldValue "q" .equals (.text "a")

/-- The test at its field, when it has to be quiet for 50 milliseconds. -/
def spelledSlot : SlotKey := ⟨Compiled.delayedKey (Condition.test spelled).key 50, [.name "q"]⟩

/-- A form with the value. -/
def spelledForm : Form where
  value := .map [(.name "q", .text "a")]

/-- The test is called. -/
def spell : Operation := .evaluate (some 50) (.test spelled) [.name "q"]

/-- The form when its field has been changed for a moment, after it has been quiet for long enough. -/
def respelled : Form :=
  spelledForm.runAll [spell, .advance 60, spell, .update (.set [.name "q"] (.text "b")), spell, .advance 20,
    .update (.set [.name "q"] (.text "a")), spell]

set_option maxRecDepth 100000 in
/-- The first answer is `false`; once the field has been quiet, a short change is not seen. -/
theorem delayed_answers_settled_respelled : ∃ t e older,
    .delayed spelledSlot.function t 50 ∈ respelled.compiled.functions ∧
    (∀ e ∈ respelled.testPast spelledSlot, e.onTime = true) ∧ respelled.testPast spelledSlot = e :: older ∧
    e.event = .answered true ∧ changes older = [(80, true), (60, false), (0, true)] ∧
    Settles 50 (changes older) e.moment true := by
  have hpast : respelled.testPast spelledSlot = [⟨spelledSlot, 80, true, .answered true⟩,
      ⟨spelledSlot, 80, true, .computed true 50⟩, ⟨spelledSlot, 60, true, .answered true⟩,
      ⟨spelledSlot, 60, true, .computed false 50⟩, ⟨spelledSlot, 60, true, .answered true⟩,
      ⟨spelledSlot, 60, true, .computed true 50⟩, ⟨spelledSlot, 0, true, .answered false⟩,
      ⟨spelledSlot, 0, true, .computed true 50⟩] := by decide +kernel
  have hon : ∀ e ∈ respelled.testPast spelledSlot, e.onTime = true := by
    rw [hpast]
    decide
  have hreachable : respelled.Reachable := Reachable.runAll (.fresh (f := spelledForm) rfl) _
  have hmem : ⟨spelledSlot, 0, true, .computed true 50⟩ ∈ respelled.testPast spelledSlot := by
    rw [hpast]
    decide
  obtain ⟨t, ht⟩ := (Settling.of_reachable hreachable).told _ (List.mem_of_mem_filter hmem) rfl true 50 rfl
  have hanswers := (delayed_answers_settled hreachable ht [.name "q"] hon).1
  exact ⟨t, _, _, ht, hon, hpast, rfl, rfl, hanswers [] _ _ true hpast rfl⟩

end Form
end FormRules
