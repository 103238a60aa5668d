import FormRules.Proofs.Inquiry.Slot
import FormRules.Proofs.Inquiry.Thread

/-!
# Slots keep track of their jobs

`Slot.Tracks`: the state of a slot agrees with what has happened to it. The settled question is that of
the latest job; the jobs under way are among those started and still count as running; and the answer
is the outcome of the latest job unless that is under way. Only while a quiet period has begun may the
question last dispatched be another one than the settled one.
-/

namespace FormRules

/-- The answer that the response to a job stands for; a failure is answered as if it were pending. -/
def Inquiry.answerOf (i : Inquiry) (job : InquiryJob) (response : Outcome Value) : Bool :=
  match i.judge job.question.context response with
  | .ok b => b
  | .error _ => i.pending

namespace Slot

/-- The jobs and the answer of a slot are as its past tells. -/
structure Recounts (s : Slot) (past : List Incident) (flights : Multiset InquiryJob) : Prop where
  lastKey : s.lastKey = s.lane.source.map (·.key)
  unasked : s.lane.source = none → s.lane.settled = none
  settled : s.lane.settled = (startedJobs past).head?.map (·.question)
  numbered : (startedJobs past).map (·.number) = (List.range' 1 s.jobs.generation).reverse
  flights_started : ∀ job ∈ flights, job ∈ startedJobs past
  flights_running : ∀ job ∈ flights, job.number ∈ s.jobs.running
  flights_nodup : (flights.map (·.number)).Nodup
  opening : startedJobs past = [] → s.result = s.inquiry.pending
  shown : s.result = (publishedAnswers past).head?.getD s.inquiry.pending
  latest : ∀ job, (startedJobs past).head? = some job →
    job ∈ flights ∨ ∃ r, HasEnded past job r ∧ s.result = s.inquiry.answerOf job r

/-- A slot and its thread, between two steps. -/
structure Tracks (s : Slot) (T : Thread) : Prop extends s.Recounts T.past T.flights where
  quiet : s.lane.timer = none → s.lane.settled.map (·.key) = s.lane.source.map (·.key)
  timed : s.lane.timer ≠ none → T.timers ≠ 0

variable {s : Slot} {past : List Incident} {flights : Multiset InquiryJob} {T : Thread} {job : InquiryJob}
  {d : Dispatch}

/-! ## The latest job -/

namespace Recounts

/-- The latest job has the number of the generation, and those before it have smaller ones. -/
theorem cases_started (h : s.Recounts past flights) : startedJobs past = [] ∧ s.jobs.generation = 0 ∨
    ∃ job jobs, startedJobs past = job :: jobs ∧ job.number = s.jobs.generation ∧
      ∀ j ∈ jobs, j.number < s.jobs.generation := by
  have hn := h.numbered
  cases hg : s.jobs.generation with
  | zero =>
    rw [hg] at hn
    exact .inl ⟨List.map_eq_nil_iff.mp hn, rfl⟩
  | succ n =>
    rw [hg, List.range'_1_concat, List.reverse_append, List.reverse_singleton, List.singleton_append] at hn
    obtain ⟨job, jobs, hs, hj, hr⟩ := List.map_eq_cons_iff.mp hn
    refine .inr ⟨job, jobs, hs, by omega, fun j hjs => ?_⟩
    have hm := List.mem_map_of_mem (f := (·.number)) hjs
    rw [hr, List.mem_reverse, List.mem_range'_1] at hm
    omega

theorem number_le (h : s.Recounts past flights) (hj : job ∈ startedJobs past) :
    job.number ≤ s.jobs.generation := by
  obtain ⟨hs, -⟩ | ⟨j, js, hs, hn, hl⟩ := h.cases_started
  · rw [hs] at hj
    cases hj
  · rw [hs] at hj
    obtain rfl | hj := List.mem_cons.mp hj
    · exact hn.le
    · exact (hl job hj).le

/-- A job is the latest one if it has the number of the generation. -/
theorem head_of_number (h : s.Recounts past flights) (hj : job ∈ startedJobs past)
    (hn : job.number = s.jobs.generation) : (startedJobs past).head? = some job := by
  obtain ⟨hs, -⟩ | ⟨j, js, hs, -, hl⟩ := h.cases_started
  · rw [hs] at hj
    cases hj
  · rw [hs] at hj ⊢
    obtain rfl | hj := List.mem_cons.mp hj
    · rfl
    · exact absurd hn (hl job hj).ne

theorem number_of_head (h : s.Recounts past flights) (hj : (startedJobs past).head? = some job) :
    job.number = s.jobs.generation := by
  obtain ⟨hs, -⟩ | ⟨j, js, hs, hn, -⟩ := h.cases_started
  · rw [hs] at hj
    cases hj
  · rw [hs] at hj
    obtain rfl := Option.some.inj hj
    exact hn

end Recounts

/-! ## The life of a slot -/

theorem tracks_fresh (i : Inquiry) (hs : startedJobs T.past = []) (hp : publishedAnswers T.past = [])
    (hf : T.flights = 0) : (Slot.fresh i).Tracks T where
  lastKey := rfl
  unasked _ := rfl
  settled := by rw [hs]; rfl
  numbered := by rw [hs]; rfl
  flights_started := by rw [hf]; simp
  flights_running := by rw [hf]; simp
  flights_nodup := by rw [hf]; simp
  opening _ := rfl
  shown := by rw [hp]; rfl
  latest job hj := by rw [hs] at hj; cases hj
  quiet _ := rfl
  timed h := absurd rfl h

/-- A question is dispatched; nothing else changes until its quiet period is over. -/
theorem Recounts.dispatch (h : s.Recounts past flights) (d : Dispatch) (timer : Option Nat) :
    (s.dispatch d timer).Recounts past flights :=
  { h with lastKey := rfl, unasked := nofun }

/-- The quiet period of a question is over that the latest job has asked already. -/
theorem Recounts.tracks_settled (h : s.Recounts T.past T.flights)
    (hs : s.lane.settled.map (·.key) = s.lane.source.map (·.key)) :
    Tracks { s with lane := { s.lane with timer := none } } T :=
  { h with quiet := fun _ => hs, timed := fun h => absurd rfl h }

section
variable {k : SlotKey} {i : Inquiry} {m : Int}

theorem Recounts.incident {e : Incident} (h : s.Recounts past flights) (hs : e.event.started? = none)
    (hp : e.event.published? = none) : s.Recounts (e :: past) flights := by
  have hstarted : startedJobs (e :: past) = startedJobs past := startedJobs_cons_of_none hs
  exact { h with
    settled := by rw [hstarted]; exact h.settled
    numbered := by rw [hstarted]; exact h.numbered
    flights_started := by rw [hstarted]; exact h.flights_started
    opening := by rw [hstarted]; exact h.opening
    shown := by rw [publishedAnswers_cons_of_none hp]; exact h.shown
    latest := by
      rw [hstarted]
      intro job hj
      obtain hf | ⟨r, ⟨e, he, heq⟩, hr⟩ := h.latest job hj
      · exact .inl hf
      · exact .inr ⟨r, ⟨e, List.mem_cons_of_mem _ he, heq⟩, hr⟩ }

/-- The quiet period of another question is over: a job starts, and is under way. -/
theorem Recounts.start (h : s.Recounts past flights) (d : Dispatch) (hd : s.lane.source = some d) :
    Recounts { s with lane := ⟨some d, some d, none⟩, jobs := s.jobs.start }
      (⟨k, i, m, .started ⟨s.jobs.generation + 1, d⟩⟩ :: past) (⟨s.jobs.generation + 1, d⟩ ::ₘ flights) := by
  have hs : startedJobs (⟨k, i, m, .started ⟨s.jobs.generation + 1, d⟩⟩ :: past) =
    ⟨s.jobs.generation + 1, d⟩ :: startedJobs past := rfl
  exact {
    lastKey := by rw [h.lastKey, hd]
    unasked := nofun
    settled := by rw [hs]; rfl
    numbered := by
      rw [hs, List.map_cons, h.numbered]
      show _ = (List.range' 1 (s.jobs.generation + 1)).reverse
      rw [List.range'_1_concat, List.reverse_append, Nat.add_comm]
      rfl
    flights_started := by
      rw [hs]
      intro job hj
      obtain rfl | hj := Multiset.mem_cons.mp hj
      · exact List.mem_cons_self
      · exact List.mem_cons_of_mem _ (h.flights_started job hj)
    flights_running := by
      intro job hj
      obtain rfl | hj := Multiset.mem_cons.mp hj
      · exact List.mem_cons_self
      · exact List.mem_cons_of_mem _ (h.flights_running job hj)
    flights_nodup := by
      rw [Multiset.map_cons, Multiset.nodup_cons]
      refine ⟨fun hj => ?_, h.flights_nodup⟩
      -- a job that is under way has the number of an earlier generation
      obtain ⟨job, hj, hn⟩ := Multiset.mem_map.mp hj
      exact absurd hn (Nat.ne_of_lt (Nat.lt_succ_of_le (h.number_le (h.flights_started job hj))))
    opening := by rw [hs]; exact nofun
    shown := h.shown
    latest := by
      rw [hs]
      intro job hj
      obtain rfl := Option.some.inj hj
      exact .inl (Multiset.mem_cons_self _ _) }

/-- The jobs that stay under way when one of them ends. -/
theorem Recounts.flights_tail (h : s.Recounts past (job ::ₘ flights)) :
    (∀ j ∈ flights, j ∈ startedJobs past) ∧ (∀ j ∈ flights, j.number ∈ s.jobs.running.erase job.number) ∧
      (flights.map (·.number)).Nodup := by
  have hn := h.flights_nodup
  rw [Multiset.map_cons, Multiset.nodup_cons] at hn
  refine ⟨fun j hj => h.flights_started j (Multiset.mem_cons_of_mem hj), fun j hj => ?_, hn.2⟩
  have hne : j.number ≠ job.number := fun he => hn.1 (Multiset.mem_map.mpr ⟨j, hj, he⟩)
  exact (List.mem_erase_of_ne hne).mpr (h.flights_running j (Multiset.mem_cons_of_mem hj))

/-- A job ends that is not the latest one. -/
theorem Recounts.finish (h : s.Recounts past (job ::ₘ flights)) (hd : (s.finish job.number).2 = false)
    (r : Outcome Value) :
    (s.finish job.number).1.Recounts (⟨k, i, m, .ended job r⟩ :: past) flights := by
  have hi := h.incident (e := ⟨k, i, m, .ended job r⟩) rfl rfl
  obtain ⟨hs, hr, hn⟩ := hi.flights_tail
  refine ⟨hi.lastKey, hi.unasked, hi.settled, hi.numbered, hs, hr, hn, hi.opening, hi.shown, fun j hj => ?_⟩
  obtain hf | hr := hi.latest j hj
  · obtain rfl | hf := Multiset.mem_cons.mp hf
    · have hrun := h.flights_running j (Multiset.mem_cons_self _ _)
      have hdel := finish_delivers.mpr ⟨hrun, hi.number_of_head hj⟩
      rw [hd] at hdel
      cases hdel
    · exact .inl hf
  · exact .inr hr

/-- The latest job ends, and its outcome is published. -/
theorem Recounts.publish (h : s.Recounts past (job ::ₘ flights)) (hd : (s.finish job.number).2 = true)
    (r : Outcome Value) {t : Slot} :
    ((s.finish job.number).1.answer (s.inquiry.answerOf job r)).Recounts
      (⟨k, i, m, .published t job (s.inquiry.answerOf job r)⟩ :: ⟨k, i, m, .ended job r⟩ :: past) flights := by
  have hi := h.incident (e := ⟨k, i, m, .ended job r⟩) rfl rfl
  obtain ⟨hs, hr, hn⟩ := hi.flights_tail
  have hj := h.head_of_number (h.flights_started job (Multiset.mem_cons_self _ _)) (finish_delivers.mp hd).2
  refine ⟨hi.lastKey, hi.unasked, hi.settled, hi.numbered, hs, hr, hn, fun hnil => ?_, rfl, fun j hj' => ?_⟩
  · change startedJobs past = [] at hnil
    rw [hnil] at hj
    cases hj
  · obtain rfl := Option.some.inj (hj.symm.trans hj')
    exact .inr ⟨r, ⟨_, List.mem_cons_of_mem _ List.mem_cons_self, rfl⟩, rfl⟩

end

end Slot
/-! ## Threads of a form -/

/-- What is published is the outcome of the latest job, which has just ended. Its question is the settled
one; the one last dispatched is another one only if a quiet period has begun. -/
structure Publication (e : Incident) (older : List Incident) (s : Slot) (job : InquiryJob) (b : Bool) :
    Prop where
  latest : (startedJobs (older.filter (·.slot = e.slot))).head? = some job
  settled : s.lane.settled = some job.question
  lastKey : s.lastKey = s.lane.source.map (·.key)
  quiet : s.lane.timer = none → s.lane.settled.map (·.key) = s.lane.source.map (·.key)
  outcome : ∃ r, older.head? = some { e with event := .ended job r } ∧ b = e.inquiry.answerOf job r

/-- A publication is one of the latest job. -/
def Incident.Sound (e : Incident) (older : List Incident) : Prop :=
  ∀ s job b, e.event = .published s job b → Publication e older s job b

theorem Incident.sound_of_unpublished {e : Incident} {older : List Incident} (h : e.event.published? = none) :
    e.Sound older := by
  intro s job b he
  rw [he] at h
  cases h

/-- A slot tracks its thread; where there is none, nothing has happened but answers from memory. -/
def Thread.Sound (T : Thread) : Prop :=
  match T.slot with
  | none => startedJobs T.past = [] ∧ publishedAnswers T.past = [] ∧ T.flights = 0
  | some s => s.Tracks T

theorem Thread.Sound.incident {T : Thread} (h : T.Sound) {e : Incident} (hs : e.event.started? = none)
    (hp : e.event.published? = none) : Thread.Sound { T with past := e :: T.past } := by
  unfold Thread.Sound at h ⊢
  cases hT : T.slot with
  | none =>
    rw [hT] at h
    exact ⟨(startedJobs_cons_of_none hs).trans h.1, (publishedAnswers_cons_of_none hp).trans h.2.1, h.2.2⟩
  | some s =>
    rw [hT] at h
    exact { h.toRecounts.incident hs hp with quiet := h.quiet, timed := h.timed }

theorem Slot.Tracks.sound {s : Slot} {T : Thread} (h : s.Tracks T) : Thread.Sound { T with slot := some s } :=
  { h with }

namespace Form
variable {f g : Form} {k : SlotKey} {s : Slot} {job : InquiryJob}

/-- All slots track their threads. -/
structure Tracking (f : Form) : Prop where
  timely : f.Timely
  threads : ∀ k, (f.thread k).Sound
  sound : Each Incident.Sound f.history

theorem Tracking.tracks (h : f.Tracking) (hs : Table.get? f.slots k = some s) : s.Tracks (f.thread k) := by
  have hk := h.threads k
  unfold Thread.Sound at hk
  rw [show (f.thread k).slot = some s from hs] at hk
  exact hk

theorem jobEnded_of_not_delivers (hd : (s.finish job.number).2 = false) (r : Outcome Value) :
    f.jobEnded k s job r = (f.recorded k s.inquiry (.ended job r)).withSlot k (s.finish job.number).1 := by
  unfold jobEnded
  dsimp only
  rw [hd]
  rfl

theorem jobEnded_of_delivers (hd : (s.finish job.number).2 = true) (r : Outcome Value) : ∃ answers,
    f.jobEnded k s job r = { (((f.recorded k s.inquiry (.ended job r)).withSlot k (s.finish job.number).1).answered k
      (s.finish job.number).1 job (s.inquiry.answerOf job r)) with answers } := by
  unfold jobEnded Inquiry.answerOf
  dsimp only
  rw [hd, if_pos rfl]
  cases s.inquiry.judge job.question.context r with
  | ok b => exact ⟨_, rfl⟩
  | error e => exact ⟨_, rfl⟩

theorem sound_jobEnded (h : s.Recounts (f.thread k).past (job ::ₘ (f.thread k).flights))
    (hq : s.lane.timer = none → s.lane.settled.map (·.key) = s.lane.source.map (·.key))
    (ht : s.lane.timer ≠ none → (f.thread k).timers ≠ 0) (hf : Each Incident.Sound f.history) (r : Outcome Value) :
    ((f.jobEnded k s job r).thread k).Sound ∧ Each Incident.Sound (f.jobEnded k s job r).history := by
  have hended : Each Incident.Sound (f.recorded k s.inquiry (.ended job r)).history :=
    .cons (Incident.sound_of_unpublished rfl) hf
  cases hd : (s.finish job.number).2 with
  | false =>
    rw [jobEnded_of_not_delivers hd, thread_withSlot, thread_recorded]
    exact ⟨{ h.finish hd r with quiet := hq, timed := ht }, hended⟩
  | true =>
    obtain ⟨answers, he⟩ := jobEnded_of_delivers (f := f) (k := k) hd r
    rw [he]
    refine ⟨?_, .cons (fun t j b hb => ?_) hended⟩
    · show ((answered _ k _ job _).thread k).Sound
      rw [answered, thread_withSlot, thread_recorded, thread_withSlot, thread_recorded]
      exact { h.publish hd r with quiet := hq, timed := ht }
    · cases hb
      have hj := h.head_of_number (h.flights_started job (Multiset.mem_cons_self _ _)) (Slot.finish_delivers.mp hd).2
      have hp : (f.recorded k s.inquiry (.ended job r)).history.filter (·.slot = k) =
          ⟨k, s.inquiry, f.schedule.now, .ended job r⟩ :: (f.thread k).past := congrArg Thread.past (thread_recorded ..)
      refine ⟨?_, h.settled.trans (by rw [hj]; rfl), h.lastKey, hq, r, rfl, rfl⟩
      show (startedJobs ((f.recorded k s.inquiry (.ended job r)).history.filter (·.slot = k))).head? = _
      rw [hp]
      exact hj

theorem sound_quietOver {f : Form} (h : s.Recounts (f.thread k).past (f.thread k).flights)
    (hf : Each Incident.Sound f.history) :
    ((f.quietOver k s).thread k).Sound ∧ Each Incident.Sound (f.quietOver k s).history := by
  unfold quietOver
  by_cases hq : s.lane.settled.map (·.key) = s.lane.source.map (·.key)
  · rw [Slot.settle_of_same hq]
    dsimp only
    rw [thread_withSlot]
    exact ⟨(h.tracks_settled hq).sound, hf⟩
  · cases hd : s.lane.source with
    | none =>
      rw [hd, h.unasked hd] at hq
      exact absurd rfl hq
    | some d =>
      rw [hd] at hq
      have hr := h.start (k := k) (i := s.inquiry) (m := f.schedule.now) d hd
      rw [Slot.settle_of_ne hd hq]
      unfold jobStarted
      dsimp only
      have hs : Each Incident.Sound ((f.withSlot k { s with lane := ⟨some d, some d, none⟩, jobs := s.jobs.start }).recorded
          k s.inquiry (.started ⟨s.jobs.generation + 1, d⟩)).history := .cons (Incident.sound_of_unpublished rfl) hf
      split
      · refine ⟨?_, hs⟩
        rw [thread_booked_job (.inl rfl), thread_recorded, thread_withSlot]
        exact { hr with quiet := fun _ => rfl, timed := fun h => absurd rfl h }
      · refine sound_jobEnded ?_ (fun _ => rfl) (fun h => absurd rfl h) hs _
        rw [thread_recorded, thread_withSlot]
        exact hr

theorem sound_dispatched (h : f.Timely) (hs : Table.get? f.slots k = some s) (ht : s.Tracks (f.thread k))
    (hf : Each Incident.Sound f.history) (d : Dispatch) :
    ((f.dispatched k s d).thread k).Sound ∧ Each Incident.Sound (f.dispatched k s d).history := by
  have hg : Each Incident.Sound (f.withoutTimer s.lane.timer).history := by cases s.lane.timer <;> exact hf
  have hp : ((f.withoutTimer s.lane.timer).thread k).past = (f.thread k).past := by cases s.lane.timer <;> rfl
  have hr := ht.toRecounts
  rw [← hp, ← thread_withoutTimer fun n hn => h.slots hs hn] at hr
  unfold dispatched
  dsimp only
  split
  · rw [thread_withSlot, thread_recorded, thread_booked_quiet]
    have hn : (f.withoutTimer s.lane.timer).schedule.issued ::ₘ ((f.withoutTimer s.lane.timer).thread k).timers ≠ 0 :=
      Multiset.cons_ne_zero
    exact ⟨{ (hr.incident rfl rfl).dispatch d (some _) with quiet := nofun, timed := fun _ => hn },
      .cons (Incident.sound_of_unpublished rfl) hg⟩
  · refine sound_quietOver ?_ (.cons (Incident.sound_of_unpublished rfl) hg)
    rw [thread_withSlot, thread_recorded]
    exact (hr.incident rfl rfl).dispatch d none

namespace Tracking

theorem of_isFresh (h : f.IsFresh) : f.Tracking where
  timely := .of_isFresh h
  threads k := by
    simp [thread, h.slots, h.history, Thread.Sound, Schedule.collect, h.pending, startedJobs, publishedAnswers]
  sound := by rw [h.history]; trivial

/-- A step of one inquiry is seen in its own thread only. -/
theorem of_thread (h : f.Tracking) (k : SlotKey) (hm : Move f g)
    (hk : (g.thread k).Sound ∧ Each Incident.Sound g.history)
    (he : ∀ j, k ≠ j → g.thread j = f.thread j) : g.Tracking := by
  refine ⟨h.timely.move hm, fun j => ?_, hk.2⟩
  by_cases hj : k = j
  · rw [← hj]
    exact hk.1
  · rw [he j hj]
    exact h.threads j

theorem move (h : f.Tracking) (hm : Move f g) : g.Tracking := by
  cases hm with
  | aside ha =>
    refine ⟨h.timely.aside ha, fun k => ?_, ?_⟩
    · rw [thread_aside h.timely ha]
      exact h.threads k
    · rw [ha.history]
      exact h.sound
  | compiled hc => exact ⟨h.timely.move (.compiled hc), h.threads, h.sound⟩
  | @opened k i hi hs =>
    refine h.of_thread k (.opened hi hs) ⟨?_, h.sound⟩ fun j hj => thread_withSlot_of_ne hj _
    have hk := h.threads k
    unfold Thread.Sound at hk
    rw [show (f.thread k).slot = none from hs] at hk
    rw [thread_withSlot]
    exact (Slot.tracks_fresh i hk.1 hk.2.1 hk.2.2).sound
  | consulted key => exact ⟨h.timely.move (.consulted key), h.threads, h.sound⟩
  | @recalled k i c d b hi hd hb =>
    refine h.of_thread k (.recalled hi hd hb) ⟨?_, ?_⟩ fun j hj => thread_recorded_of_ne hj _ _
    · rw [thread_recorded]
      exact (h.threads k).incident rfl rfl
    · exact .cons (Incident.sound_of_unpublished rfl) h.sound
  | @dispatched k i s c d hi hs hd =>
    have hk := sound_dispatched h.timely hs (h.tracks hs) h.sound d
    refine h.of_thread k (.dispatched hi hs hd) hk fun j hj => ?_
    exact thread_dispatched_of_ne hj (fun n hn => h.timely.slots hs hn) d
  | @quietOver a t k s ht ha hs =>
    refine h.of_thread k (.quietOver ht ha hs) (sound_quietOver ?_ h.sound) fun j hj => ?_
    · rw [thread_takes_quiet ht ha]
      exact (h.tracks hs).toRecounts
    · rw [thread_quietOver_of_ne hj, thread_takes_of_ne ht (by rw [ha]; simpa [Task.slot?] using hj)]
  | @asked a t k s job r ht ha hs hr =>
    have hk := h.threads k
    rw [thread_takes_job ht (.inl ha)] at hk
    refine h.of_thread k (.asked ht ha hs hr) ⟨?_, .cons (Incident.sound_of_unpublished rfl) h.sound⟩ fun j hj => ?_
    · unfold asked
      rw [thread_booked_job (.inr ⟨r.outcome, rfl⟩), thread_recorded]
      exact hk.incident rfl rfl
    · unfold asked
      rw [thread_booked_of_ne (by simpa [Task.slot?] using hj), thread_recorded_of_ne hj,
        thread_takes_of_ne ht (by rw [ha]; simpa [Task.slot?] using hj)]
  | @failed a t k s job e ht ha hs =>
    have hk := h.tracks hs
    rw [thread_takes_job ht (.inl ha)] at hk
    have hend := sound_jobEnded hk.toRecounts hk.quiet hk.timed h.sound (.error e)
    refine h.of_thread k (.failed ht ha hs) hend fun j hj => ?_
    rw [thread_jobEnded_of_ne hj, thread_takes_of_ne ht (by rw [ha]; simpa [Task.slot?] using hj)]
  | @replied a t k s job r ht ha hs =>
    have hk := h.tracks hs
    rw [thread_takes_job ht (.inr ⟨r, ha⟩)] at hk
    have hend := sound_jobEnded hk.toRecounts hk.quiet hk.timed h.sound r
    refine h.of_thread k (.replied ht ha hs) hend fun j hj => ?_
    rw [thread_jobEnded_of_ne hj, thread_takes_of_ne ht (by rw [ha]; simpa [Task.slot?] using hj)]
  | @lapsed a t k ht ha hs =>
    have other (j : SlotKey) (hj : k ≠ j) : (f.onSchedule t).thread j = f.thread j :=
      thread_takes_of_ne ht (by rw [ha]; simpa using hj)
    refine h.of_thread k (.lapsed ht ha hs) ⟨?_, h.sound⟩ other
    have hk := h.threads k
    unfold Thread.Sound at hk ⊢
    rw [show (f.thread k).slot = none from hs] at hk
    rw [show ((f.onSchedule t).thread k).slot = none from hs]
    refine ⟨hk.1, hk.2.1, ?_⟩
    cases hj : a.job? k with
    | none => exact (ht.collect_none hj).trans hk.2.2
    | some job => exact absurd ((ht.collect_some hj).symm.trans hk.2.2) Multiset.cons_ne_zero

theorem turn (h : f.Tracking) (ht : Turn f g) : g.Tracking := by
  cases ht with
  | move hm => exact h.move hm
  | wrote v => exact ⟨h.timely.turn (.wrote v), h.threads, h.sound⟩
  | adjusted => exact ⟨h.timely.turn (.adjusted ..), h.threads, h.sound⟩
  | attached ha => exact ⟨h.timely.turn (.attached ha), h.threads, h.sound⟩
  | streamed s hs => exact ⟨h.timely.turn (.streamed s hs), h.threads, h.sound⟩

theorem registered {schema : Schema} (h : f.Tracking) : (f.next (.registerSchema schema)).Tracking :=
  ⟨h.timely.registered schema, h.threads, h.sound⟩

theorem of_reachable (h : f.Reachable) : f.Tracking :=
  h.induct (fun _ => of_isFresh) (fun _ _ ht h => h.turn ht) fun _ _ h => h.registered

end Tracking
end Form
end FormRules
