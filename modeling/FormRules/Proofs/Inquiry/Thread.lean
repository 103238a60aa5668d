import FormRules.Proofs.Form.Timely

/-!
# The thread of a slot

A form keeps the threads of many inquiries: for each slot its state, what has happened to it, the jobs
under way and the timers of quiet periods. A step of one inquiry leaves the threads of all others alone,
and steps that are none of an inquiry leave all of them alone.
-/

namespace FormRules

section
variable (k : SlotKey) (a : Appointment Task)

/-- The job of an inquiry that an appointment is for. -/
def Appointment.job? : Option InquiryJob :=
  match a.task with
  | .inquiryStart j job | .inquiryReply j job _ => if j = k then some job else none
  | _ => none

/-- The timer of a quiet period of an inquiry that an appointment is for. -/
def Appointment.timer? : Option Nat :=
  match a.task with
  | .inquiryQuiet j => if j = k then some a.serial else none
  | _ => none

variable {k a}

theorem Appointment.job?_of_ne (h : a.task.slot? ≠ some k) : a.job? k = none := by
  unfold job?
  split <;> next hk => simp_all [Task.slot?]

theorem Appointment.timer?_of_ne (h : a.task.slot? ≠ some k) : a.timer? k = none := by
  unfold timer?
  split <;> next hk => simp_all [Task.slot?]

end

/-- All that a form keeps about one slot. -/
structure Thread where
  slot : Option Slot
  /-- What has happened, the latest first. -/
  past : List Incident
  /-- The jobs that have been started and have not ended. -/
  flights : Multiset InquiryJob
  /-- The timers of quiet periods that are not over. -/
  timers : Multiset Nat

namespace Form
variable {f g : Form} {j k : SlotKey} {a : Appointment Task} {t : Schedule Task}

/-- The thread of a slot. -/
def thread (f : Form) (k : SlotKey) : Thread where
  slot := Table.get? f.slots k
  past := f.history.filter (·.slot = k)
  flights := f.schedule.collect (·.job? k)
  timers := f.schedule.collect (·.timer? k)

/-! ## What happens elsewhere -/

theorem thread_recorded_of_ne (h : j ≠ k) (i : Inquiry) (e : InquiryEvent) :
    (f.recorded j i e).thread k = f.thread k := by
  simp [thread, recorded, h]

theorem thread_withSlot_of_ne (h : j ≠ k) (s : Slot) : (f.withSlot j s).thread k = f.thread k := by
  simp [thread, withSlot, Table.get?_put_of_ne h.symm]

theorem thread_booked_of_ne {task : Task} (h : task.slot? ≠ some k) (delay : Int) :
    (f.booked delay task).thread k = f.thread k := by
  simp only [thread, booked, onSchedule]
  rw [Schedule.collect_after_none (Appointment.job?_of_ne h),
    Schedule.collect_after_none (Appointment.timer?_of_ne h)]

theorem thread_takes_of_ne (ht : f.schedule.Takes a t) (h : a.task.slot? ≠ some k) :
    (f.onSchedule t).thread k = f.thread k := by
  simp only [thread, onSchedule]
  rw [ht.collect_none (Appointment.job?_of_ne h), ht.collect_none (Appointment.timer?_of_ne h)]

theorem thread_withoutTimer_of_ne {timer : Option Nat} {task : Task} (h : task.slot? ≠ some k)
    (ho : ∀ n, timer = some n → f.schedule.Owns n task) : (f.withoutTimer timer).thread k = f.thread k := by
  cases timer with
  | none => rfl
  | some n =>
    simp only [thread, withoutTimer, onSchedule]
    rw [(ho n rfl).collect_cancel fun a ha => Appointment.job?_of_ne (by rw [ha]; exact h),
      (ho n rfl).collect_cancel fun a ha => Appointment.timer?_of_ne (by rw [ha]; exact h)]

theorem thread_answered_of_ne (h : j ≠ k) (s : Slot) (job : InquiryJob) (b : Bool) :
    (f.answered j s job b).thread k = f.thread k := by
  rw [answered, thread_withSlot_of_ne h, thread_recorded_of_ne h]

theorem thread_remembered (s : Slot) (job : InquiryJob) (b : Bool) :
    (f.remembered s job b).thread k = f.thread k := rfl

theorem thread_jobEnded_of_ne (h : j ≠ k) (s : Slot) (job : InquiryJob) (r : Outcome Value) :
    (f.jobEnded j s job r).thread k = f.thread k := by
  unfold jobEnded
  dsimp only
  split
  · split
    · rw [thread_answered_of_ne h, thread_remembered, thread_withSlot_of_ne h, thread_recorded_of_ne h]
    · rw [thread_answered_of_ne h, thread_withSlot_of_ne h, thread_recorded_of_ne h]
  · rw [thread_withSlot_of_ne h, thread_recorded_of_ne h]

theorem thread_jobStarted_of_ne (h : j ≠ k) (s : Slot) (job : InquiryJob) :
    (f.jobStarted j s job).thread k = f.thread k := by
  unfold jobStarted
  dsimp only
  split
  · rw [thread_booked_of_ne (by simpa [Task.slot?] using h), thread_recorded_of_ne h]
  · rw [thread_jobEnded_of_ne h, thread_recorded_of_ne h]

theorem thread_quietOver_of_ne (h : j ≠ k) (s : Slot) : (f.quietOver j s).thread k = f.thread k := by
  unfold quietOver
  split
  · rw [thread_jobStarted_of_ne h, thread_withSlot_of_ne h]
  · rw [thread_withSlot_of_ne h]

theorem thread_dispatched_of_ne (h : j ≠ k) {s : Slot} (hs : ∀ n, s.lane.timer = some n →
    f.schedule.Owns n (.inquiryQuiet j)) (d : Dispatch) : (f.dispatched j s d).thread k = f.thread k := by
  have hk : (Task.inquiryQuiet j).slot? ≠ some k := by simpa [Task.slot?] using h
  unfold dispatched
  dsimp only
  split
  · rw [thread_withSlot_of_ne h, thread_recorded_of_ne h, thread_booked_of_ne hk, thread_withoutTimer_of_ne hk hs]
  · rw [thread_quietOver_of_ne h, thread_withSlot_of_ne h, thread_recorded_of_ne h, thread_withoutTimer_of_ne hk hs]

theorem thread_aside (h : f.Timely) (ha : Aside f g) (k : SlotKey) : g.thread k = f.thread k := by
  cases ha with
  | noted => rfl
  | ticked => rfl
  | served => rfl
  | booked delay ht hk => exact thread_booked_of_ne (by rw [ht]; simp) delay
  | testOpened => rfl
  | @testFollowed j d t ms ht hd b =>
    refine testTold_cases (P := fun g => g.thread k = f.thread k) rfl ?_
    have hj : (Task.testQuiet j).slot? ≠ some k := by simp [Task.slot?]
    exact (thread_booked_of_ne hj ms).trans (thread_withoutTimer_of_ne hj fun n hn => h.tests hd hn)
  | testSettled ht ha hd => exact thread_takes_of_ne ht (by rw [ha]; simp [Task.slot?])
  | testNoted => rfl
  | testCancelled hl hd => exact thread_withoutTimer_of_ne (by simp [Task.slot?]) fun n hn => h.tests hd hn
  | testPut => rfl
  | streamCancelled hs => exact thread_withoutTimer_of_ne (by simp [Task.slot?]) fun n hn => h.streams hs hn
  | streamPut => rfl
  | streamTimed n s root ms =>
    exact thread_booked_of_ne (f := f) (show (Task.streamQuiet n).slot? ≠ some k by simp [Task.slot?]) ms
  | taken ht ha hk => exact thread_takes_of_ne ht (by rw [ha]; simp)

/-! ## What happens to the slot itself -/

theorem thread_recorded (i : Inquiry) (e : InquiryEvent) : (f.recorded k i e).thread k =
    { f.thread k with past := ⟨k, i, f.schedule.now, e⟩ :: (f.thread k).past } := by
  simp [thread, recorded]

theorem thread_withSlot (s : Slot) : (f.withSlot k s).thread k = { f.thread k with slot := some s } := by
  simp [thread, withSlot]

theorem thread_booked_quiet (delay : Int) : (f.booked delay (.inquiryQuiet k)).thread k =
    { f.thread k with timers := f.schedule.issued ::ₘ (f.thread k).timers } := by
  simp only [thread, booked, onSchedule]
  rw [Schedule.collect_after_none rfl, Schedule.collect_after_some (if_pos rfl)]

theorem thread_booked_job {task : Task} {job : InquiryJob}
    (h : task = .inquiryStart k job ∨ ∃ r, task = .inquiryReply k job r) (delay : Int) :
    (f.booked delay task).thread k = { f.thread k with flights := job ::ₘ (f.thread k).flights } := by
  simp only [thread, booked, onSchedule]
  obtain rfl | ⟨r, rfl⟩ := h
  · rw [Schedule.collect_after_some (if_pos rfl), Schedule.collect_after_none rfl]
  · rw [Schedule.collect_after_some (if_pos rfl), Schedule.collect_after_none rfl]

/-- A job of the slot is taken out to go on. -/
theorem thread_takes_job {job : InquiryJob} (ht : f.schedule.Takes a t)
    (h : a.task = .inquiryStart k job ∨ ∃ r, a.task = .inquiryReply k job r) : f.thread k =
      { (f.onSchedule t).thread k with flights := job ::ₘ ((f.onSchedule t).thread k).flights } := by
  have hj : a.job? k = some job := by
    unfold Appointment.job?
    obtain h | ⟨r, h⟩ := h <;> rw [h] <;> exact if_pos rfl
  have hn : a.timer? k = none := by
    unfold Appointment.timer?
    obtain h | ⟨r, h⟩ := h <;> rw [h]
  simp only [thread, onSchedule]
  rw [ht.collect_some hj, ht.collect_none hn]

/-- The end of a quiet period is taken out; the jobs stay under way. -/
theorem thread_takes_quiet (ht : f.schedule.Takes a t) (h : a.task = .inquiryQuiet k) :
    ((f.onSchedule t).thread k).flights = (f.thread k).flights := by
  refine ht.collect_none ?_
  unfold Appointment.job?
  rw [h]

/-- A quiet period is broken off; the jobs stay under way. -/
theorem thread_withoutTimer {timer : Option Nat}
    (ho : ∀ n, timer = some n → f.schedule.Owns n (.inquiryQuiet k)) :
    ((f.withoutTimer timer).thread k).flights = (f.thread k).flights := by
  cases timer with
  | none => rfl
  | some n =>
    refine (ho n rfl).collect_cancel fun a ha => ?_
    unfold Appointment.job?
    rw [ha]

end Form
end FormRules
