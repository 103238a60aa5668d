import FormRules.Proofs.Form.Frame
import FormRules.Proofs.Form.Timely
import FormRules.Proofs.Inquiry.Answers
import FormRules.Proofs.Inquiry.Key
import FormRules.Proofs.Inquiry.Tracking

/-!
# The pace of jobs

Between a question and a job that asks it there are three filters: only a question that is new is dispatched, the
quiet period starts anew with every dispatch, and at its end a job is started unless the one before asked the same.
What remains of them: a job asks what was dispatched last, no earlier than the quiet period allows, and never what
the job before it has asked; and a dispatch comes to nothing only if another one follows or that job has asked it.
-/

namespace FormRules

/-- What is dispatched, with the timer of its quiet period. -/
def InquiryEvent.dispatched? : InquiryEvent → Option (Dispatch × Option Nat)
  | dispatched d timer => some (d, timer)
  | _ => none

/-- The last dispatch of a past, the latest incident first. -/
def lastDispatch? (past : List Incident) : Option Incident := past.find? (·.event.dispatched?.isSome)

section
variable {past newer older : List Incident} {e : Incident}

theorem lastDispatch?_cons_of_none (h : e.event.dispatched? = none) :
    lastDispatch? (e :: past) = lastDispatch? past := List.find?_cons_of_neg (by simp [h])

theorem lastDispatch?_cons {d : Dispatch} {timer : Option Nat} (h : e.event = .dispatched d timer) :
    lastDispatch? (e :: past) = some e := List.find?_cons_of_pos (by simp [h, InquiryEvent.dispatched?])

theorem lastDispatch?_append {d : Dispatch} {timer : Option Nat} (h : e.event = .dispatched d timer)
    (hn : ∀ e' ∈ newer, e'.event.dispatched? = none) : lastDispatch? (newer ++ e :: older) = some e := by
  induction newer with
  | nil => exact lastDispatch?_cons h
  | cons a newer ih =>
    obtain ⟨ha, hn⟩ := List.forall_mem_cons.mp hn
    exact (lastDispatch?_cons_of_none ha).trans (ih hn)

end

/-- A job is started for the last dispatch, once its quiet period is over, and asks something else than the job
before it. What is dispatched has its serialized snapshot for a key. -/
structure Incident.Paced (settings : Settings) (e : Incident) (older : List Incident) : Prop where
  started : ∀ job, e.event = .started job → ∃ e' timer, lastDispatch? older = some e' ∧
    e'.event = .dispatched job.question timer ∧ e'.inquiry = e.inquiry ∧
    (timer ≠ none → e'.moment + max (e.inquiry.quietMs settings) 0 ≤ e.moment) ∧
    ∀ last, (startedJobs older).head? = some last → last.question.key ≠ job.question.key
  keyed : ∀ d timer, e.event = .dispatched d timer → d.key = d.snapshot.canonical

theorem Incident.paced_of_none {settings : Settings} {e : Incident} {older : List Incident}
    (hs : e.event.started? = none) (hd : e.event.dispatched? = none) : e.Paced settings older where
  started job he := by rw [he] at hs; cases hs
  keyed d timer he := by rw [he] at hd; cases hd

/-- Whether a task is the end of a quiet period of a slot. -/
def Task.isInquiryQuiet (k : SlotKey) : Task → Bool
  | .inquiryQuiet j => j = k
  | _ => false

theorem Task.isInquiryQuiet_self (k : SlotKey) : (inquiryQuiet k).isInquiryQuiet k = true := decide_eq_true rfl

theorem Task.isInquiryQuiet_of_slot {k : SlotKey} {t : Task} (h : t.slot? ≠ some k) : t.isInquiryQuiet k = false := by
  cases t with
  | inquiryQuiet j => simpa [isInquiryQuiet, slot?] using h
  | _ => rfl

/-! ## A slot and its last dispatch -/

/-- What a slot waits for after its last dispatch: either its quiet period is over, or its end is the only one of
the slot that is pending. -/
inductive Slot.Awaits (s : Slot) (k : SlotKey) (settings : Settings) :
    Option Incident → Multiset (Appointment Task) → Prop
  | never (hs : s.lane.source = none) (ht : s.lane.timer = none) : Awaits s k settings none 0
  | elapsed {e : Incident} {d : Dispatch} {timer : Option Nat} (he : e.event = .dispatched d timer)
    (hi : e.inquiry = s.inquiry) (hs : s.lane.source = some d) (ht : s.lane.timer = none) :
    Awaits s k settings (some e) 0
  | quiet {e : Incident} {d : Dispatch} {n : Nat} (he : e.event = .dispatched d (some n))
    (hi : e.inquiry = s.inquiry) (hs : s.lane.source = some d) (ht : s.lane.timer = some n) :
    Awaits s k settings (some e) {⟨e.moment + max (s.inquiry.quietMs settings) 0, n, .inquiryQuiet k⟩}

/-- The quiet period of the last dispatch is over. -/
def Slot.Due (s : Slot) (settings : Settings) (now : Int) (last : Option Incident) : Prop :=
  ∃ e d timer, last = some e ∧ e.event = .dispatched d timer ∧ e.inquiry = s.inquiry ∧ s.lane.source = some d ∧
    (timer ≠ none → e.moment + max (s.inquiry.quietMs settings) 0 ≤ now)

/-- The past of a slot is well paced, and the slot waits for what it dispatched last. -/
structure Thread.Paced (T : Thread) (k : SlotKey) (settings : Settings) (waits : Multiset (Appointment Task)) :
    Prop where
  sound : Each (Incident.Paced settings) T.past
  unopened : T.slot = none → lastDispatch? T.past = none ∧ waits = 0
  opened : ∀ s, T.slot = some s → s.Awaits k settings (lastDispatch? T.past) waits

section
variable {s t : Slot} {k : SlotKey} {settings : Settings} {now : Int} {last : Option Incident} {past : List Incident}
  {waits : Multiset (Appointment Task)} {T : Thread} {e : Incident}

theorem Slot.Awaits.congr (h : s.Awaits k settings last waits) (hl : t.lane = s.lane) (hi : t.inquiry = s.inquiry) :
    t.Awaits k settings last waits := by
  cases h with
  | never hs ht => exact .never (hl ▸ hs) (hl ▸ ht)
  | elapsed he hin hs ht => exact .elapsed he (hin.trans hi.symm) (hl ▸ hs) (hl ▸ ht)
  | quiet he hin hs ht =>
    rw [← hi]
    exact .quiet he (hin.trans hi.symm) (hl ▸ hs) (hl ▸ ht)

theorem Slot.Due.source (h : s.Due settings now last) : ∃ d, s.lane.source = some d := by
  obtain ⟨e, d, timer, -, -, -, hsource, -⟩ := h
  exact ⟨d, hsource⟩

/-- When the quiet period is over, a slot at rest waits for nothing. -/
theorem Slot.Due.awaits (h : s.Due settings now last) (hs : t.lane.source = s.lane.source) (ht : t.lane.timer = none)
    (hi : t.inquiry = s.inquiry) : t.Awaits k settings last 0 := by
  obtain ⟨e, d, timer, rfl, he, hinquiry, hsource, -⟩ := h
  exact .elapsed he (hinquiry.trans hi.symm) (hs.trans hsource) ht

/-- When the quiet period is over, a job may be started for the last dispatch, unless the newest asks the same. -/
theorem Slot.Due.paced {d : Dispatch} {number : Nat} (h : s.Due settings now (lastDispatch? past))
    (hs : s.lane.source = some d) (hr : s.lane.settled = (startedJobs past).head?.map (·.question))
    (hq : s.lane.settled.map (·.key) ≠ some d.key) :
    Incident.Paced settings ⟨k, s.inquiry, now, .started ⟨number, d⟩⟩ past := by
  obtain ⟨e, d', timer, hlast, he, hi, hsource, htime⟩ := h
  obtain rfl := Option.some.inj (hsource.symm.trans hs)
  refine ⟨fun job hj => ?_, nofun⟩
  cases hj
  refine ⟨e, timer, hlast, he, hi, htime, fun newest hnewest => ?_⟩
  rw [hr, hnewest] at hq
  exact fun hkey => hq (congrArg some hkey)

theorem Thread.Paced.incident (h : T.Paced k settings waits) (hs : e.event.started? = none)
    (hd : e.event.dispatched? = none) : Thread.Paced { T with past := e :: T.past } k settings waits where
  sound := .cons (Incident.paced_of_none hs hd) h.sound
  unopened hT := ⟨(lastDispatch?_cons_of_none hd).trans (h.unopened hT).1, (h.unopened hT).2⟩
  opened s hT := by
    rw [lastDispatch?_cons_of_none hd]
    exact h.opened s hT

theorem Thread.paced_of_slot (hs : Each (Incident.Paced settings) T.past)
    (ha : s.Awaits k settings (lastDispatch? T.past) waits) :
    Thread.Paced { T with slot := some s } k settings waits where
  sound := hs
  unopened := nofun
  opened t ht := by
    obtain rfl := Option.some.inj ht
    exact ha

end

namespace Form
variable {f g : Form} {j k : SlotKey} {s : Slot} {job : InquiryJob} {a : Appointment Task} {t : Schedule Task}

/-- The ends of quiet periods of a slot that are pending. -/
def waits (f : Form) (k : SlotKey) : Multiset (Appointment Task) := f.schedule.waiting (Task.isInquiryQuiet k)

/-! ## Quiet periods that are none of a step's business -/

theorem waits_booked (delay : Int) (task : Task) (h : task.isInquiryQuiet k = false) :
    (f.booked delay task).waits k = f.waits k := (f.schedule.spares_after delay h).waiting

theorem waits_takes (ht : f.schedule.Takes a t) (h : a.task.isInquiryQuiet k = false) :
    (f.onSchedule t).waits k = f.waits k := (ht.spares h).waiting

theorem waits_jobEnded (k : SlotKey) (j : SlotKey) (s : Slot) (job : InquiryJob) (r : Outcome Value) :
    (f.jobEnded j s job r).waits k = f.waits k := by
  rw [waits, schedule_jobEnded]
  rfl

theorem waits_quietOver (k : SlotKey) (j : SlotKey) (s : Slot) : (f.quietOver j s).waits k = f.waits k :=
  (spares_quietOver (fun _ => rfl) s).waiting

theorem waits_dispatched_of_ne (h : j ≠ k) {s : Slot}
    (hs : ∀ n, s.lane.timer = some n → f.schedule.Owns n (.inquiryQuiet j)) (d : Dispatch) :
    (f.dispatched j s d).waits k = f.waits k := (spares_dispatched (fun _ => rfl) (decide_eq_false h) hs d).waiting

theorem waits_aside (h : f.Timely) (ha : Aside f g) (k : SlotKey) : g.waits k = f.waits k :=
  (ha.spares h fun _ ht => Task.isInquiryQuiet_of_slot (by rw [ht]; nofun)).waiting

/-! ## The steps of a slot -/

theorem waits_withoutTimer {last : Option Incident} (h : s.Awaits k f.settings last (f.waits k)) :
    (f.withoutTimer s.lane.timer).waits k = 0 := by
  generalize hw : f.waits k = w at h
  cases h with
  | never hs ht | elapsed he hi hs ht =>
    rw [ht]
    exact hw
  | quiet he hi hs ht =>
    rw [ht]
    refine (Schedule.waiting_cancel f.schedule _ _).trans ?_
    rw [show f.schedule.waiting (Task.isInquiryQuiet k) = _ from hw]
    simp

/-- The end of a quiet period is taken out: it is that of the last dispatch, and none is left. -/
theorem due_of_takes {last : Option Incident} (h : s.Awaits k f.settings last (f.waits k))
    (ht : f.schedule.Takes a t) (ha : a.task = .inquiryQuiet k) :
    s.Due f.settings t.now last ∧ (f.onSchedule t).waits k = 0 := by
  have hw : f.waits k = a ::ₘ (f.onSchedule t).waits k := ht.waiting (by rw [ha]; exact Task.isInquiryQuiet_self k)
  rw [hw] at h
  generalize hl : a ::ₘ (f.onSchedule t).waits k = w at h
  cases h with
  | never | elapsed => exact absurd hl Multiset.cons_ne_zero
  | @quiet e d n he hi hs htimer =>
    -- the slot waits for one end only, so this is the one
    obtain ⟨rfl, hnone⟩ := (Multiset.cons_eq_cons.mp hl).resolve_right fun ⟨_, cs, _, hcs⟩ =>
      absurd hcs.symm Multiset.cons_ne_zero
    exact ⟨⟨e, d, some n, rfl, he, hi, hs, fun _ => ht.due_le⟩, hnone⟩

theorem paced_jobEnded {u : Slot} (hp : (f.thread k).Paced k f.settings (f.waits k))
    (hs : (f.thread k).slot = some u) (hl : s.lane = u.lane) (hi : s.inquiry = u.inquiry) (r : Outcome Value) :
    ((f.jobEnded k s job r).thread k).Paced k f.settings (f.waits k) := by
  have hlast := hp.opened u hs
  have ended := hp.incident (e := ⟨k, s.inquiry, f.schedule.now, .ended job r⟩) rfl rfl
  have lane : (s.finish job.number).1.lane = u.lane := hl
  have inquiry : (s.finish job.number).1.inquiry = u.inquiry := hi
  cases hd : (s.finish job.number).2 with
  | false =>
    rw [jobEnded_of_not_delivers hd, thread_withSlot, thread_recorded]
    exact Thread.paced_of_slot ended.sound ((ended.opened u hs).congr lane inquiry)
  | true =>
    obtain ⟨answers, he⟩ := jobEnded_of_delivers (f := f) (k := k) hd r
    rw [he]
    show ((answered _ k _ job _).thread k).Paced _ _ _
    rw [answered, thread_withSlot, thread_recorded, thread_withSlot, thread_recorded]
    have published := ended.incident (e := ⟨k, (s.finish job.number).1.inquiry, f.schedule.now,
      .published (s.finish job.number).1 job (s.inquiry.answerOf job r)⟩) rfl rfl
    exact Thread.paced_of_slot published.sound ((published.opened u hs).congr lane inquiry)

/-- A job that is started goes on in its slot, or without a loop ends at once. -/
theorem paced_jobStarted (hs : (f.thread k).slot = some s)
    (hp : Each (Incident.Paced f.settings) (⟨k, s.inquiry, f.schedule.now, .started job⟩ :: (f.thread k).past))
    (ha : s.Awaits k f.settings (lastDispatch? (f.thread k).past) (f.waits k)) :
    ((f.jobStarted k s job).thread k).Paced k f.settings (f.waits k) := by
  have hrecorded : ((f.recorded k s.inquiry (.started job)).thread k).Paced k f.settings (f.waits k) := by
    rw [thread_recorded]
    refine ⟨hp, fun hnone => absurd (hs.symm.trans hnone) nofun, fun u hu => ?_⟩
    obtain rfl := Option.some.inj (hs.symm.trans hu)
    rw [lastDispatch?_cons_of_none rfl]
    exact ha
  unfold jobStarted
  dsimp only
  split
  · rw [thread_booked_job (.inl rfl)]
    exact ⟨hrecorded.sound, hrecorded.unopened, hrecorded.opened⟩
  · exact paced_jobEnded hrecorded (by rw [thread_recorded]; exact hs) rfl rfl _

/-- A quiet period is over: a job is started for the last dispatch, or the job before it has asked the same. -/
theorem paced_quietOver (hr : s.Recounts (f.thread k).past (f.thread k).flights)
    (hp : Each (Incident.Paced f.settings) (f.thread k).past)
    (hd : s.Due f.settings f.schedule.now (lastDispatch? (f.thread k).past)) (hw : f.waits k = 0) :
    ((f.quietOver k s).thread k).Paced k f.settings ((f.quietOver k s).waits k) := by
  obtain ⟨d, hsource⟩ := hd.source
  rw [waits_quietOver, hw]
  unfold quietOver
  by_cases hq : s.lane.settled.map (·.key) = s.lane.source.map (·.key)
  · -- the job before has asked the same: the slot comes to rest without a job
    rw [Slot.settle_of_same hq]
    dsimp only
    rw [thread_withSlot]
    exact Thread.paced_of_slot hp (hd.awaits rfl rfl rfl)
  · rw [hsource] at hq
    rw [Slot.settle_of_ne hsource hq]
    dsimp only
    have hnone : (f.withSlot k { s with lane := ⟨some d, some d, none⟩, jobs := s.jobs.start }).waits k = 0 := hw
    rw [← hnone]
    refine paced_jobStarted (by rw [thread_withSlot]) ?_ ?_
    · rw [thread_withSlot]
      exact .cons (hd.paced hsource hr.settled hq) hp
    · rw [thread_withSlot, hnone]
      exact hd.awaits hsource.symm rfl rfl

/-- A question is dispatched: its quiet period takes the place of the one before, and without a loop is over at once. -/
theorem paced_dispatched (ht : f.Tracking) (hs : Table.get? f.slots k = some s)
    (hp : (f.thread k).Paced k f.settings (f.waits k)) {d : Dispatch} (hd : d.key = d.snapshot.canonical) :
    ((f.dispatched k s d).thread k).Paced k f.settings ((f.dispatched k s d).waits k) := by
  have hnone := waits_withoutTimer (hp.opened s hs)
  have hpast : ((f.withoutTimer s.lane.timer).thread k).past = (f.thread k).past := by cases s.lane.timer <;> rfl
  have hr := (ht.tracks hs).toRecounts
  rw [← hpast, ← thread_withoutTimer fun n hn => ht.timely.slots hs hn] at hr
  have hsettings := f.withoutTimer_settings s.lane.timer
  have hsound := hp.sound
  rw [← hpast] at hsound
  have hdispatch (timer : Option Nat) : Each (Incident.Paced f.settings)
      (⟨k, s.inquiry, (f.withoutTimer s.lane.timer).schedule.now, .dispatched d timer⟩ ::
        ((f.withoutTimer s.lane.timer).thread k).past) :=
    .cons ⟨nofun, fun d' _ he => by cases he; exact hd⟩ hsound
  unfold dispatched
  dsimp only
  split
  · rw [thread_withSlot, thread_recorded, thread_booked_quiet]
    refine Thread.paced_of_slot (hdispatch _) ?_
    have hbooked : ((f.withoutTimer s.lane.timer).booked (s.inquiry.quietMs f.settings) (.inquiryQuiet k)).waits k =
        {⟨(f.withoutTimer s.lane.timer).schedule.now + max (s.inquiry.quietMs f.settings) 0,
          (f.withoutTimer s.lane.timer).schedule.issued, .inquiryQuiet k⟩} := by
      refine (Schedule.waiting_after (Task.isInquiryQuiet_self k)).trans ?_
      rw [show (f.withoutTimer s.lane.timer).schedule.waiting (Task.isInquiryQuiet k) = 0 from hnone]
      rfl
    rw [lastDispatch?_cons rfl]
    show Slot.Awaits _ _ _ _ (((f.withoutTimer s.lane.timer).booked _ (.inquiryQuiet k)).waits k)
    rw [hbooked]
    exact .quiet rfl rfl rfl rfl
  · have hquiet := paced_quietOver (k := k) (s := s.dispatch d none)
      (f := ((f.withoutTimer s.lane.timer).recorded k s.inquiry (.dispatched d none)).withSlot k (s.dispatch d none))
    rw [thread_withSlot, thread_recorded] at hquiet
    rw [← hsettings] at hdispatch ⊢
    refine hquiet ((hr.incident rfl rfl).dispatch d none) (hdispatch none) ?_ hnone
    exact ⟨_, d, none, lastDispatch?_cons rfl, rfl, rfl, rfl, fun h => absurd rfl h⟩

/-! ## All slots -/

/-- The slots of a form are well paced, and wait for what they dispatched last. -/
structure Pacing (f : Form) : Prop where
  tracking : f.Tracking
  threads : ∀ k, (f.thread k).Paced k f.settings (f.waits k)

namespace Pacing

theorem of_isFresh (h : f.IsFresh) : f.Pacing where
  tracking := .of_isFresh h
  threads k := {
    sound := by simp [thread, h.history, Each]
    unopened := fun _ => by simp [thread, h.history, lastDispatch?, waits, Schedule.waiting, Schedule.collect, h.pending]
    opened := fun s hs => by simp [thread, h.slots] at hs }

/-- A step of one inquiry is seen in its own slot only. -/
theorem of_slot (h : f.Pacing) (k : SlotKey) (hm : Move f g)
    (hk : (g.thread k).Paced k f.settings (g.waits k))
    (he : ∀ j, k ≠ j → g.thread j = f.thread j ∧ g.waits j = f.waits j) : g.Pacing := by
  refine ⟨h.tracking.move hm, fun j => ?_⟩
  rw [hm.settings]
  by_cases hj : k = j
  · rw [← hj]
    exact hk
  · rw [(he j hj).1, (he j hj).2]
    exact h.threads j

theorem jobEnded {r : Outcome Value} (h : f.Pacing) (hm : Move f ((f.onSchedule t).jobEnded k s job r))
    (ht : f.schedule.Takes a t) (ha : a.task = .inquiryStart k job ∨ ∃ r, a.task = .inquiryReply k job r)
    (hs : Table.get? f.slots k = some s) : ((f.onSchedule t).jobEnded k s job r).Pacing := by
  have hslot : a.task.slot? = some k ∧ ∀ j, a.task.isInquiryQuiet j = false := by
    obtain ha | ⟨r, ha⟩ := ha <;> rw [ha] <;> exact ⟨rfl, fun _ => rfl⟩
  have hwaits (j : SlotKey) : ((f.onSchedule t).jobEnded k s job r).waits j = (f.onSchedule t).waits j :=
    waits_jobEnded j k s job r
  refine h.of_slot k hm ?_ fun j hj => ⟨?_, ?_⟩
  · rw [hwaits]
    have hk := h.threads k
    rw [← waits_takes ht (hslot.2 k)] at hk
    exact paced_jobEnded (f := f.onSchedule t) ⟨hk.sound, hk.unopened, hk.opened⟩ hs rfl rfl r
  · rw [thread_jobEnded_of_ne hj, thread_takes_of_ne ht (by rw [hslot.1]; simpa using hj)]
  · rw [hwaits, waits_takes ht (hslot.2 j)]

theorem move (h : f.Pacing) (hm : Move f g) : g.Pacing := by
  have timely := h.tracking.timely
  cases hm with
  | aside ha =>
    refine ⟨h.tracking.move (.aside ha), fun k => ?_⟩
    rw [thread_aside timely ha, waits_aside timely ha, (Move.aside ha).settings]
    exact h.threads k
  | compiled hc => exact ⟨h.tracking.move (.compiled hc), h.threads⟩
  | consulted key => exact ⟨h.tracking.move (.consulted key), h.threads⟩
  | @opened k i hi hs =>
    refine h.of_slot k (.opened hi hs) ?_ fun j hj => ⟨thread_withSlot_of_ne hj _, rfl⟩
    obtain ⟨hlast, hwaits⟩ := (h.threads k).unopened hs
    rw [thread_withSlot]
    refine Thread.paced_of_slot (h.threads k).sound ?_
    rw [hlast, show (f.withSlot k (.fresh i)).waits k = 0 from hwaits]
    exact .never rfl rfl
  | @recalled k i c d b hi hd hb =>
    refine h.of_slot k (.recalled hi hd hb) ?_ fun j hj => ⟨thread_recorded_of_ne hj _ _, rfl⟩
    rw [thread_recorded]
    exact (h.threads k).incident rfl rfl
  | @dispatched k i s c d hi hs hd =>
    have owns (n : Nat) (hn : s.lane.timer = some n) := timely.slots hs hn
    refine h.of_slot k (.dispatched hi hs hd) ?_ fun j hj =>
      ⟨thread_dispatched_of_ne hj owns d, waits_dispatched_of_ne hj owns d⟩
    exact paced_dispatched h.tracking hs (h.threads k) (Inquiry.question_cases hd).2.1
  | @quietOver a t k s ht ha hs =>
    have hslot : a.task.slot? = some k := by rw [ha]; rfl
    refine h.of_slot k (.quietOver ht ha hs) ?_ fun j hj => ⟨?_, ?_⟩
    · obtain ⟨hdue, hnone⟩ := due_of_takes ((h.threads k).opened s hs) ht ha
      refine paced_quietOver (f := f.onSchedule t) ?_ (h.threads k).sound hdue hnone
      rw [thread_takes_quiet ht ha]
      exact (h.tracking.tracks hs).toRecounts
    · rw [thread_quietOver_of_ne hj, thread_takes_of_ne ht (by rw [hslot]; simpa using hj)]
    · rw [waits_quietOver, waits_takes ht (Task.isInquiryQuiet_of_slot (by rw [hslot]; simpa using hj))]
  | @asked a t k s job r ht ha hs hr =>
    have hslot : a.task.slot? = some k := by rw [ha]; rfl
    have htakes := thread_takes_job ht (.inl ha)
    have hwaits (j : SlotKey) : ((f.onSchedule t).asked k s job r).waits j = f.waits j :=
      (waits_booked r.delay _ rfl).trans (waits_takes ht (by rw [ha]; rfl))
    refine h.of_slot k (.asked ht ha hs hr) ?_ fun j hj => ⟨?_, hwaits j⟩
    · rw [hwaits]
      unfold asked
      rw [thread_booked_job (.inr ⟨r.outcome, rfl⟩), thread_recorded]
      have hk := (h.threads k).incident (e := ⟨k, s.inquiry, t.now, .asked job r⟩) rfl rfl
      exact ⟨hk.sound, hk.unopened, hk.opened⟩
    · unfold asked
      rw [thread_booked_of_ne (by simpa [Task.slot?] using hj), thread_recorded_of_ne hj,
        thread_takes_of_ne ht (by rw [hslot]; simpa using hj)]
  | @failed a t k s job e ht ha hs => exact h.jobEnded (.failed ht ha hs) ht (.inl ha) hs
  | @replied a t k s job r ht ha hs => exact h.jobEnded (.replied ht ha hs) ht (.inr ⟨r, ha⟩) hs
  | @lapsed a t k ht ha hs =>
    have other (j : SlotKey) (hj : k ≠ j) : a.task.slot? ≠ some j := by rw [ha]; simpa using hj
    refine h.of_slot k (.lapsed ht ha hs) ?_ fun j hj =>
      ⟨thread_takes_of_ne ht (other j hj), waits_takes ht (Task.isInquiryQuiet_of_slot (other j hj))⟩
    obtain ⟨hlast, hwaits⟩ := (h.threads k).unopened hs
    refine ⟨(h.threads k).sound, fun _ => ⟨hlast, ?_⟩, fun s hslot => by cases hs.symm.trans hslot⟩
    cases hq : a.task.isInquiryQuiet k with
    | false => exact (waits_takes ht hq).trans hwaits
    -- a slot that does not exist waits for no end
    | true => exact absurd ((ht.waiting hq).symm.trans hwaits) Multiset.cons_ne_zero

theorem turn (h : f.Pacing) (ht : Turn f g) : g.Pacing := by
  cases ht with
  | move hm => exact h.move hm
  | wrote v => exact ⟨h.tracking.turn (.wrote v), h.threads⟩
  | adjusted => exact ⟨h.tracking.turn (.adjusted ..), h.threads⟩
  | attached ha => exact ⟨h.tracking.turn (.attached ha), h.threads⟩
  | streamed s hs => exact ⟨h.tracking.turn (.streamed s hs), h.threads⟩

theorem of_reachable (h : f.Reachable) : f.Pacing :=
  h.induct (fun _ => of_isFresh) (fun _ _ ht h => h.turn ht) fun _ _ h => ⟨h.tracking.registered, h.threads⟩

end Pacing

/-!
## What becomes of dispatches

Every job asks what its slot dispatched last, after the quiet period and not what the job before it asked. So a
dispatch is lost only to a newer one, or because the newest job has asked it already.
-/

variable {newer older : List Incident} {e : Incident}

theorem Pacing.paced (h : f.Pacing) (hp : (f.thread k).past = newer ++ e :: older) : e.Paced f.settings older := by
  have hsound := (h.threads k).sound
  rw [hp] at hsound
  exact hsound.of_append

/-- Questions that were dispatched or asked have their serialized snapshots for keys. -/
theorem Pacing.key_of_started (h : f.Pacing) {past : List Incident} (hp : (f.thread k).past = newer ++ past)
    {job : InquiryJob} (hj : job ∈ startedJobs past) : job.question.key = job.question.snapshot.canonical := by
  obtain ⟨e, he, hevent⟩ := mem_startedJobs.mp hj
  obtain ⟨l, r, rfl⟩ := List.append_of_mem he
  rw [← List.append_assoc] at hp
  obtain ⟨e', timer, hlast, he', -⟩ := (h.paced hp).started job hevent
  obtain ⟨l', r', rfl⟩ := List.append_of_mem (List.mem_of_find?_eq_some hlast)
  rw [← List.cons_append, ← List.append_assoc] at hp
  exact (h.paced hp).keyed _ _ he'

/-- With nothing dispatched since, a job asks what was dispatched last. -/
theorem Pacing.question_of_started (h : f.Pacing) (hp : (f.thread k).past = newer ++ e :: older) {d : Dispatch}
    {timer : Option Nat} (hd : e.event = .dispatched d timer)
    (hnone : ∀ e' ∈ newer, e'.event.dispatched? = none) {job : InquiryJob} (hj : job ∈ startedJobs newer) :
    job.question = d := by
  obtain ⟨x, hx, hjob⟩ := mem_startedJobs.mp hj
  obtain ⟨l, r, rfl⟩ := List.append_of_mem hx
  rw [List.append_assoc, List.cons_append] at hp
  obtain ⟨e', timer', hlast, he', -⟩ := (h.paced hp).started job hjob
  have hright : ∀ y ∈ r, y.event.dispatched? = none := fun y hy =>
    hnone y (List.mem_append_right l (List.mem_cons_of_mem x hy))
  rw [lastDispatch?_append hd hright] at hlast
  obtain rfl := Option.some.inj hlast
  rw [hd] at he'
  cases he'
  rfl

/-- Every job asks what was dispatched last before it was started, no earlier than the quiet period of the inquiry
after that dispatch if there was a loop to wait on, and another snapshot than the job before it. A dispatch has been
replaced by a newer one, its quiet period is going on, a job asks it, or the newest job had asked the same already. -/
theorem starts_follow_dispatches (h : f.Reachable) (hp : (f.thread k).past = newer ++ e :: older) :
    (∀ job, e.event = .started job → ∃ e' timer, lastDispatch? older = some e' ∧
      e'.event = .dispatched job.question timer ∧ e'.inquiry = e.inquiry ∧
      (timer ≠ none → e'.moment + max (e.inquiry.quietMs f.settings) 0 ≤ e.moment) ∧
      ∀ last, (startedJobs older).head? = some last →
        last.question.snapshot.canonical ≠ job.question.snapshot.canonical) ∧
    ∀ d timer, e.event = .dispatched d timer →
      (∃ e' ∈ newer, ∃ d' timer', e'.event = .dispatched d' timer') ∨
      (∃ n, timer = some n ∧
        ⟨e.moment + max (e.inquiry.quietMs f.settings) 0, n, .inquiryQuiet k⟩ ∈ f.schedule.pending) ∨
      (∃ job ∈ startedJobs newer, job.question = d) ∨
      ∃ job, startedJobs newer = [] ∧ (startedJobs older).head? = some job ∧
        job.question.snapshot.canonical = d.snapshot.canonical := by
  have hpacing := Pacing.of_reachable h
  have hpaced := hpacing.paced hp
  have holder : (f.thread k).past = (newer ++ [e]) ++ older := by rw [hp, List.append_assoc]; rfl
  constructor
  · intro job hjob
    obtain ⟨e', timer, hlast, he', hi, htime, hother⟩ := hpaced.started job hjob
    refine ⟨e', timer, hlast, he', hi, htime, fun last hl => ?_⟩
    have hkey : job ∈ startedJobs (e :: older) := mem_startedJobs.mpr ⟨e, List.mem_cons_self, hjob⟩
    rw [← hpacing.key_of_started holder (List.mem_of_mem_head? hl), ← hpacing.key_of_started hp hkey]
    exact hother last hl
  · intro d timer hd
    by_cases hnewer : ∃ e' ∈ newer, ∃ d' timer', e'.event = .dispatched d' timer'
    · exact .inl hnewer
    have hnone : ∀ e' ∈ newer, e'.event.dispatched? = none := by
      intro e' he'
      cases hev : e'.event with
      | dispatched d' timer' => exact absurd ⟨e', he', d', timer', hev⟩ hnewer
      | _ => rfl
    have hlast : lastDispatch? (f.thread k).past = some e := hp ▸ lastDispatch?_append hd hnone
    cases hs : (f.thread k).slot with
    | none => cases hlast.symm.trans ((hpacing.threads k).unopened hs).1
    | some s =>
      have hawaits := (hpacing.threads k).opened s hs
      generalize hw : f.waits k = w at hawaits
      rw [hlast] at hawaits
      cases hawaits with
      | @quiet _ d' n he hi hsource htimer =>
        rw [hd] at he
        cases he
        refine .inr (.inl ⟨n, rfl, ?_⟩)
        rw [hi]
        exact (Schedule.mem_waiting.mp (show _ ∈ f.waits k from hw ▸ Multiset.mem_singleton_self _)).1
      | @elapsed _ d' timer' he hi hsource htimer =>
        rw [hd] at he
        cases he
        refine .inr (.inr ?_)
        -- at rest, the newest job has asked what was dispatched last
        have htracks := hpacing.tracking.tracks hs
        have hsame := htracks.quiet htimer
        rw [htracks.settled, hsource] at hsame
        obtain ⟨q, hq, hkey⟩ := Option.map_eq_some_iff.mp hsame
        obtain ⟨job, hjob, rfl⟩ := Option.map_eq_some_iff.mp hq
        have hsplit : startedJobs (f.thread k).past = startedJobs newer ++ startedJobs older := by
          rw [hp, startedJobs, List.filterMap_append, List.filterMap_cons_none (by rw [hd]; rfl)]
          rfl
        cases hstarted : startedJobs newer with
        | nil =>
          rw [hsplit, hstarted, List.nil_append] at hjob
          refine .inr ⟨job, rfl, hjob, ?_⟩
          rw [← hpacing.key_of_started holder (List.mem_of_mem_head? hjob), hkey]
          exact hpaced.keyed d timer hd
        | cons first rest =>
          have hfirst : first ∈ startedJobs newer := hstarted ▸ List.mem_cons_self
          exact .inl ⟨first, List.mem_cons_self, hpacing.question_of_started hp hd hnone hfirst⟩

/-- The lookup form when its field has been typed into twice, the second time within the quiet period. -/
def typed : Form :=
  lookupForm.runAll [lookUp, .advance 20, .update (.set [.name "q"] (.text "b")), lookUp, .advance 60]

set_option maxRecDepth 100000 in
/-- Only what was typed last is asked, when the field has been quiet for as long as the lookup wants it to be. -/
theorem starts_follow_dispatches_typed : ∃ newer e older job e',
    (typed.thread lookupSlot).past = newer ++ e :: older ∧ e.event = .started job ∧ e.moment = 70 ∧
    lastDispatch? older = some e' ∧ (∃ timer, e'.event = .dispatched job.question timer) ∧ e'.moment = 20 ∧
    e'.moment + max (e.inquiry.quietMs typed.settings) 0 ≤ e.moment := by
  have hshape : (typed.thread lookupSlot).past.map (fun e => (e.moment, e.event.started?.isSome,
      e.event.dispatched?.map (·.2.isSome))) =
      [(70, false, none), (70, true, none), (20, false, some true), (0, false, some true)] := by decide +kernel
  obtain ⟨e₁, past, hpast, -, hshape⟩ := List.map_eq_cons_iff.mp hshape
  obtain ⟨e, past, rfl, he, hshape⟩ := List.map_eq_cons_iff.mp hshape
  obtain ⟨e', past, rfl, he', -⟩ := List.map_eq_cons_iff.mp hshape
  obtain ⟨hmoment, hstarted, -⟩ : e.moment = 70 ∧ e.event.started?.isSome ∧ _ := by simpa using he
  obtain ⟨hmoment', -, hdispatched⟩ : e'.moment = 20 ∧ _ ∧ e'.event.dispatched?.map (·.2.isSome) = some true := by
    simpa using he'
  obtain ⟨job, hjob⟩ : ∃ job, e.event = .started job := by
    cases hev : e.event <;> rw [hev] at hstarted <;> cases hstarted
    exact ⟨_, rfl⟩
  obtain ⟨x, timer, hlast, hx, -, htime, -⟩ :=
    (starts_follow_dispatches (lookupForm_reachable.runAll _) (show _ = [e₁] ++ e :: _ from hpast)).1 job hjob
  obtain rfl : e' = x := by
    rw [show lastDispatch? (e' :: past) = some e' from List.find?_cons_of_pos (by
      cases hd : e'.event.dispatched? <;> rw [hd] at hdispatched <;> simp_all)] at hlast
    exact Option.some.inj hlast
  refine ⟨[e₁], e, e' :: past, job, e', hpast, hjob, hmoment, hlast, ⟨timer, hx⟩, hmoment', htime ?_⟩
  rintro rfl
  rw [hx] at hdispatched
  cases hdispatched

end Form
end FormRules
