import FormRules.Proofs.Form.Turns

/-!
# Timers

`Timely`: every timer that a form keeps is that of a pending task of its own, or of one that is not
pending any more. Breaking off a quiet period therefore never drops a task of something else.
-/

namespace FormRules.Form
variable {f g : Form} {k : SlotKey} {s : Slot} {t : Schedule Task}

/-- Every timer that is kept belongs to the task that ends its quiet period. -/
structure Timely (f : Form) : Prop where
  ordered : f.schedule.Ordered
  slots : ∀ {k s n}, Table.get? f.slots k = some s → s.lane.timer = some n → f.schedule.Owns n (.inquiryQuiet k)
  tests : ∀ {k d n}, Table.get? f.delayed k = some d → d.timer = some n → f.schedule.Owns n (.testQuiet k)
  streams : ∀ {i s n}, f.streams[i]? = some s → s.lane.timer = some n → f.schedule.Owns n (.streamQuiet i)

namespace Timely

theorem of_isFresh (h : f.IsFresh) : f.Timely where
  ordered a ha := by rw [h.pending] at ha; cases ha
  slots hs := by rw [h.slots] at hs; cases hs
  tests hd := by rw [h.delayed] at hd; cases hd
  streams hs := by rw [h.streams] at hs; cases hs

theorem onSchedule (h : f.Timely) (ht : f.schedule.Extends t) : (f.onSchedule t).Timely :=
  ⟨ht.ordered h.ordered, fun hk hn => ht.owns (h.slots hk hn), fun hk hn => ht.owns (h.tests hk hn),
    fun hi hn => ht.owns (h.streams hi hn)⟩

theorem booked (h : f.Timely) (delay : Int) (task : Task) : (f.booked delay task).Timely :=
  h.onSchedule (Schedule.extends_after _ _ _)

theorem withoutTimer (h : f.Timely) (timer : Option Nat) : (f.withoutTimer timer).Timely := by
  cases timer with
  | none => exact h
  | some n => exact h.onSchedule (Schedule.extends_cancel _ _)

theorem withSlot (h : f.Timely) (hs : ∀ n, s.lane.timer = some n → f.schedule.Owns n (.inquiryQuiet k)) :
    (f.withSlot k s).Timely := by
  refine ⟨h.ordered, fun hj hn => ?_, h.tests, h.streams⟩
  obtain ⟨rfl, rfl⟩ | hj := Table.of_get?_put hj
  · exact hs _ hn
  · exact h.slots hj hn

theorem withTest {d : Debounced (Option Bool)} (h : f.Timely)
    (hd : ∀ n, d.timer = some n → f.schedule.Owns n (.testQuiet k)) : (f.withTest k d).Timely := by
  refine ⟨h.ordered, h.slots, fun hj hn => ?_, h.streams⟩
  obtain ⟨rfl, rfl⟩ | hj := Table.of_get?_put hj
  · exact hd _ hn
  · exact h.tests hj hn

theorem testChanged (h : f.Timely) (k : SlotKey) (d : Debounced (Option Bool)) (b : Bool) (ms : Int) :
    (f.testChanged k d b ms).Timely := by
  have hg := h.withoutTimer d.timer
  refine (hg.booked ms (.testQuiet k)).withTest fun n hn => ?_
  cases hn
  exact hg.ordered.owns_after _ _

theorem withStream {n : Nat} {s : Stream} (h : f.Timely)
    (hs : ∀ m, s.lane.timer = some m → f.schedule.Owns m (.streamQuiet n)) :
    Timely { f with streams := f.streams.set n s } := by
  refine ⟨h.ordered, h.slots, h.tests, fun {i u m} hi hm => ?_⟩
  by_cases hn : n = i
  · subst hn
    rw [List.getElem?_set_self'] at hi
    obtain ⟨_, _, rfl⟩ := Option.map_eq_some_iff.mp hi
    exact hs m hm
  · rw [List.getElem?_set_ne hn] at hi
    exact h.streams hi hm

theorem recorded (h : f.Timely) (i : Inquiry) (e : InquiryEvent) : (f.recorded k i e).Timely :=
  ⟨h.ordered, h.slots, h.tests, h.streams⟩

theorem remembered (h : f.Timely) (job : InquiryJob) (b : Bool) : (f.remembered s job b).Timely :=
  ⟨h.ordered, h.slots, h.tests, h.streams⟩

theorem answered (h : f.Timely) (hs : ∀ n, s.lane.timer = some n → f.schedule.Owns n (.inquiryQuiet k))
    (job : InquiryJob) (b : Bool) : (f.answered k s job b).Timely := (h.recorded _ _).withSlot hs

theorem jobEnded (h : f.Timely) (hs : ∀ n, s.lane.timer = some n → f.schedule.Owns n (.inquiryQuiet k))
    (job : InquiryJob) (r : Outcome Value) : (f.jobEnded k s job r).Timely := by
  have ht : ∀ n, (s.finish job.number).1.lane.timer = some n → f.schedule.Owns n (.inquiryQuiet k) := hs
  have hg : ((f.recorded k s.inquiry (.ended job r)).withSlot k (s.finish job.number).1).Timely :=
    (h.recorded _ _).withSlot hs
  unfold Form.jobEnded
  dsimp only
  split
  · split
    · exact (hg.remembered job _).answered ht job _
    · exact hg.answered ht job _
  · exact hg

theorem jobStarted (h : f.Timely) (hs : ∀ n, s.lane.timer = some n → f.schedule.Owns n (.inquiryQuiet k))
    (job : InquiryJob) : (f.jobStarted k s job).Timely := by
  unfold Form.jobStarted
  dsimp only
  split
  · exact (h.recorded _ _).booked _ _
  · exact (h.recorded _ _).jobEnded hs _ _

theorem quietOver (h : f.Timely) (k : SlotKey) (s : Slot) : (f.quietOver k s).Timely := by
  have ht := s.settle_timer
  unfold Form.quietOver
  generalize s.settle = r at ht ⊢
  have hn : ∀ n, r.1.lane.timer = some n → f.schedule.Owns n (.inquiryQuiet k) := by
    intro n hn
    rw [ht] at hn
    cases hn
  split
  · exact (h.withSlot hn).jobStarted hn _
  · exact h.withSlot hn

theorem dispatched (h : f.Timely) (k : SlotKey) (s : Slot) (d : Dispatch) : (f.dispatched k s d).Timely := by
  have hg := h.withoutTimer s.lane.timer
  unfold Form.dispatched
  dsimp only
  split
  · refine ((hg.booked _ _).recorded _ _).withSlot fun n hn => ?_
    cases hn
    exact hg.ordered.owns_after _ _
  · exact ((hg.recorded _ _).withSlot fun n hn => by cases hn).quietOver _ _

theorem aside (h : f.Timely) (ha : Aside f g) : g.Timely := by
  cases ha with
  | noted => exact ⟨h.ordered, h.slots, h.tests, h.streams⟩
  | ticked ht => exact h.onSchedule ⟨fun ho => ho, fun ho => ⟨ho.issued, ho.task_eq⟩⟩
  | served => exact ⟨h.ordered, h.slots, h.tests, h.streams⟩
  | booked delay ht hk => exact h.booked _ _
  | testOpened hd => exact h.withTest nofun
  | @testFollowed k d t ms ht hd b =>
    have told := testTold_cases h (h.testChanged k d b ms)
    exact ⟨told.ordered, told.slots, told.tests, told.streams⟩
  | testSettled ht ha hd =>
    refine (h.onSchedule ht.extends).withTest fun n hn => ?_
    rw [Debounced.settle_timer] at hn
    cases hn
  | testNoted => exact ⟨h.ordered, h.slots, h.tests, h.streams⟩
  | testCancelled hl hd => exact h.withoutTimer _
  | testPut hl ht =>
    refine h.withTest fun n hn => ?_
    rw [ht] at hn
    cases hn
  | streamCancelled hs => exact h.withoutTimer _
  | streamPut hs ht =>
    refine h.withStream fun m hm => ?_
    obtain ht | ht := ht
    · rw [ht] at hm
      cases hm
    · exact h.streams hs (ht.symm.trans hm)
  | streamTimed n s root ms =>
    refine (h.booked _ _).withStream fun m hm => ?_
    cases hm
    exact h.ordered.owns_after _ _
  | taken ht ha hk => exact h.onSchedule ht.extends

theorem move (h : f.Timely) (hm : Move f g) : g.Timely := by
  cases hm with
  | aside ha => exact h.aside ha
  | compiled hc => exact ⟨h.ordered, h.slots, h.tests, h.streams⟩
  | opened hi hs => exact h.withSlot fun n hn => nomatch hn
  | consulted key => exact ⟨h.ordered, h.slots, h.tests, h.streams⟩
  | recalled hi hd hb => exact ⟨h.ordered, h.slots, h.tests, h.streams⟩
  | dispatched hi hs hd => exact h.dispatched _ _ _
  | quietOver ht ha hs => exact (h.onSchedule ht.extends).quietOver _ _
  | asked ht ha hs hr => exact ((h.onSchedule ht.extends).recorded _ _).booked _ _
  | failed ht ha hs =>
    have hf := h.onSchedule ht.extends
    exact hf.jobEnded (fun n hn => hf.slots hs hn) _ _
  | replied ht ha hs =>
    have hf := h.onSchedule ht.extends
    exact hf.jobEnded (fun n hn => hf.slots hs hn) _ _
  | lapsed ht ha hs => exact h.onSchedule ht.extends

theorem registered (h : f.Timely) (schema : Schema) : (f.next (.registerSchema schema)).Timely :=
  ⟨h.ordered, h.slots, h.tests, h.streams⟩

theorem turn (h : f.Timely) (ht : Turn f g) : g.Timely := by
  cases ht with
  | move hm => exact h.move hm
  | wrote v => exact ⟨h.ordered, h.slots, h.tests, h.streams⟩
  | adjusted => exact ⟨h.ordered, h.slots, h.tests, h.streams⟩
  | attached => exact ⟨h.ordered, h.slots, h.tests, h.streams⟩
  | streamed s hs =>
    refine ⟨h.ordered, h.slots, h.tests, fun {i u n} hi hn => ?_⟩
    rw [List.getElem?_append] at hi
    split_ifs at hi
    · exact h.streams hi hn
    · obtain rfl := List.mem_singleton.mp (List.mem_of_getElem? hi)
      rw [hs] at hn
      cases hn

end Timely
end FormRules.Form

/-!
## Tasks that a step has nothing to do with

Which steps leave the pending tasks of a kind alone: those of inquiries have nothing to do with tests, and the asides
nothing with inquiries. In no step does time go back.
-/

namespace FormRules

namespace Form
variable {f g : Form} {q : Task → Bool} {k : SlotKey} {s : Slot} {task : Task} {a : Appointment Task}
  {t : Schedule Task}

/-- Time does not go back, and the pending tasks of a kind stay the same. -/
abbrev KeepsTasks (q : Task → Bool) (f g : Form) : Prop := f.schedule.Spares q g.schedule

theorem spares_withoutTimer {timer : Option Nat} (h : q task = false)
    (ho : ∀ n, timer = some n → f.schedule.Owns n task) : f.KeepsTasks q (f.withoutTimer timer) := by
  cases timer with
  | none => exact .refl _ _
  | some n => exact (ho n rfl).spares_cancel h

theorem schedule_jobEnded (k : SlotKey) (s : Slot) (job : InquiryJob) (r : Outcome Value) :
    (f.jobEnded k s job r).schedule = f.schedule := by
  unfold jobEnded
  dsimp only
  split
  · split <;> rfl
  · rfl

theorem spares_jobStarted {job : InquiryJob} (h : q (.inquiryStart k job) = false) (s : Slot) :
    f.KeepsTasks q (f.jobStarted k s job) := by
  unfold jobStarted KeepsTasks
  dsimp only
  split
  · exact f.schedule.spares_after 0 h
  · rw [schedule_jobEnded]
    exact .refl _ _

theorem spares_quietOver (h : ∀ job, q (.inquiryStart k job) = false) (s : Slot) :
    f.KeepsTasks q (f.quietOver k s) := by
  unfold quietOver
  split
  · next t job _ => exact spares_jobStarted (f := f.withSlot k t) (h job) t
  · exact .refl _ _

theorem spares_dispatched (h : ∀ job, q (.inquiryStart k job) = false) (hk : q (.inquiryQuiet k) = false)
    (ho : ∀ n, s.lane.timer = some n → f.schedule.Owns n (.inquiryQuiet k)) (d : Dispatch) :
    f.KeepsTasks q (f.dispatched k s d) := by
  refine (spares_withoutTimer hk ho).trans ?_
  unfold dispatched
  dsimp only
  split
  · exact Schedule.spares_after _ _ hk
  · exact spares_quietOver (f := ((f.withoutTimer s.lane.timer).recorded k _ _).withSlot k _) h _

theorem spares_testChanged {d : Debounced (Option Bool)} (hk : q (.testQuiet k) = false)
    (ho : ∀ n, d.timer = some n → f.schedule.Owns n (.testQuiet k)) (b : Bool) (ms : Int) :
    f.KeepsTasks q (f.testChanged k d b ms) := (spares_withoutTimer hk ho).trans (Schedule.spares_after _ _ hk)

end Form

variable {f g : Form} {q : Task → Bool}

/-- The asides leave all tasks of inquiries alone. -/
theorem Aside.spares (h : f.Timely) (ha : Aside f g) (hq : ∀ t, t.slot? = none → q t = false) : f.KeepsTasks q g := by
  cases ha with
  | noted => exact .refl _ _
  | ticked hnow => exact ⟨hnow, rfl⟩
  | served => exact .refl _ _
  | booked delay ht hk => exact Schedule.spares_after _ _ (hq _ ht)
  | testOpened => exact .refl _ _
  | testFollowed ht hd b =>
    exact Form.testTold_cases (.refl _ _) (Form.spares_testChanged (hq _ rfl) (fun n hn => h.tests hd hn) _ _)
  | testSettled ht ha hd => exact ht.spares (hq _ (by rw [ha]; rfl))
  | testNoted => exact .refl _ _
  | testCancelled hl hd => exact Form.spares_withoutTimer (hq _ rfl) fun n hn => h.tests hd hn
  | testPut => exact .refl _ _
  | streamCancelled hs => exact Form.spares_withoutTimer (hq _ rfl) fun n hn => h.streams hs hn
  | streamPut => exact .refl _ _
  | streamTimed n s root ms => exact Schedule.spares_after _ _ (hq (.streamQuiet n) rfl)
  | taken ht ha hk => exact ht.spares (hq _ ha)

/-- All other moves leave all tasks alone that are none of inquiries. -/
theorem Move.spares (h : f.Timely) (hm : Move f g) (hq : ∀ t, t.slot? ≠ none → q t = false) :
    Aside f g ∨ f.KeepsTasks q g := by
  have start (k : SlotKey) (job : InquiryJob) : q (.inquiryStart k job) = false := hq _ nofun
  cases hm with
  | aside ha => exact .inl ha
  | compiled | opened | consulted | recalled => exact .inr (.refl _ _)
  | dispatched hi hs hd =>
    exact .inr (Form.spares_dispatched (start _) (hq _ nofun) (fun n hn => h.slots hs hn) _)
  | @quietOver a t k s ht ha hs =>
    exact .inr ((ht.spares (hq _ (by rw [ha]; nofun))).trans (Form.spares_quietOver (f := f.onSchedule t) (start k) s))
  | asked ht ha hs hr =>
    exact .inr ((ht.spares (hq _ (by rw [ha]; nofun))).trans (Schedule.spares_after _ _ (hq _ nofun)))
  | failed ht ha hs | replied ht ha hs =>
    refine .inr ?_
    unfold Form.KeepsTasks
    rw [Form.schedule_jobEnded]
    exact ht.spares (hq _ (by rw [ha]; nofun))
  | lapsed ht ha hs => exact .inr (ht.spares (hq _ (by rw [ha]; nofun)))

end FormRules
