import FormRules.Proofs.Form.Compiled
import FormRules.Proofs.Form.Turns
import FormRules.Proofs.Inquiry.Slot
import FormRules.Proofs.Inquiry.Key
import FormRules.Proofs.Store.Expiring

/-!
# Remembered answers

`Form.Mindful`: every answer that a form remembers has a ground in what has happened. A job ended with a
response that its inquiry, the one that stored the answer, took for this answer; if that inquiry asks the
service, the service gave this response to this very request. Answers are remembered under the keys of
questions, so the ground of a recalled answer may be a job of any inquiry that asks the same.
-/

namespace FormRules

section
variable (fs : List LogicFunction) (settings : Settings) (routes : List (String × List Route))
  (past : List Incident)

/-- The service has answered a job with a value. -/
def Served (k : SlotKey) (i : Inquiry) (job : InquiryJob) (v : Value) : Prop :=
  ∃ e ∈ past, ∃ r, ∃ service : Service, e.slot = k ∧ e.inquiry = i ∧ e.event = .asked job r ∧
    service.routes = routes ∧ r = (service.send job.question.snapshot).1 ∧ r.outcome = .ok v

/-- The question is one of the inquiry of a slot. -/
def Asks (k : SlotKey) (d : Dispatch) : Prop := ∃ i, .inquiry k.function i ∈ fs ∧ i.question d.context = .ok d

/-- The job is one of the inquiry of a slot; a response of the service is one that it has given. -/
def Backed (k : SlotKey) (job : InquiryJob) (r : Outcome Value) : Prop :=
  ∃ i, .inquiry k.function i ∈ fs ∧ i.question job.question.context = .ok job.question ∧
    (i.isRemote → ∀ v, r = .ok v → Served routes past k i job v)

/-- The jobs that are under way are backed. -/
def Task.IsBacked : Task → Prop
  | .inquiryStart k job => Asks fs k job.question
  | .inquiryReply k job r => Backed fs routes past k job r
  | _ => True

/-- The incident by which an answer came to be remembered until a moment. -/
structure Ground (key : String) (b : Bool) (expires : Int) (e : Incident) (job : InquiryJob) (v : Value) :
    Prop where
  mem : e ∈ past
  event : e.event = .ended job (.ok v)
  question : e.inquiry.question job.question.context = .ok job.question
  key_eq : job.question.key = key
  judged : e.inquiry.judge job.question.context (.ok v) = .ok b
  expires_eq : expires = e.moment + max (e.inquiry.memoryMs settings) 0
  served : e.inquiry.isRemote → Served routes past e.slot e.inquiry job v

/-- A recalled answer has a ground, and has not expired. -/
def Incident.IsGrounded (e : Incident) (older : List Incident) : Prop :=
  ∀ d b, e.event = .recalled d b → ∃ expires e' job v, Ground settings routes older d.key b expires e' job v ∧
    e'.moment ≤ e.moment ∧ e.moment < expires ∧ ∃ c, e.inquiry.question c = .ok d

end

section
variable {fs gs : List LogicFunction} {settings : Settings} {routes : List (String × List Route)}
  {past past' : List Incident} {k : SlotKey} {job : InquiryJob} {r : Outcome Value}

theorem Served.mono {i : Inquiry} {v : Value} (hp : past ⊆ past') (h : Served routes past k i job v) :
    Served routes past' k i job v := by
  obtain ⟨e, he, hr⟩ := h
  exact ⟨e, hp he, hr⟩

theorem Backed.mono (hf : fs ⊆ gs) (hp : past ⊆ past') (h : Backed fs routes past k job r) :
    Backed gs routes past' k job r := by
  obtain ⟨i, hi, hq, hs⟩ := h
  exact ⟨i, hf hi, hq, fun hr v hv => (hs hr v hv).mono hp⟩

theorem Asks.mono {d : Dispatch} (hf : fs ⊆ gs) (h : Asks fs k d) : Asks gs k d := by
  obtain ⟨i, hi, hq⟩ := h
  exact ⟨i, hf hi, hq⟩

theorem Asks.backed (h : Asks fs k job.question) (e : Fault) : Backed fs routes past k job (.error e) := by
  obtain ⟨i, hi, hq⟩ := h
  exact ⟨i, hi, hq, fun _ v hv => by cases hv⟩

theorem Task.IsBacked.mono {t : Task} (hf : fs ⊆ gs) (hp : past ⊆ past') (h : t.IsBacked fs routes past) :
    t.IsBacked gs routes past' := by
  cases t with
  | inquiryStart k job => exact Asks.mono hf h
  | inquiryReply k job r => exact Backed.mono hf hp h
  | _ => trivial

theorem Task.isBacked_of_slot {t : Task} (h : t.slot? = none) : t.IsBacked fs routes past := by
  cases t with
  | inquiryStart k job => cases h
  | inquiryReply k job r => cases h
  | _ => trivial

theorem Ground.mono {key : String} {b : Bool} {expires : Int} {e : Incident} {v : Value} (hp : past ⊆ past')
    (h : Ground settings routes past key b expires e job v) :
    Ground settings routes past' key b expires e job v :=
  { h with mem := hp h.mem, served := fun hr => (h.served hr).mono hp }

end

namespace Form
variable {f g : Form} {k : SlotKey} {s : Slot} {job : InquiryJob} {r : Outcome Value} {t : Schedule Task}

/-- What a form remembers, and what it is about to learn, is founded on what has happened. -/
structure Mindful (f : Form) : Prop where
  known : f.compiled.Known
  slots : ∀ {k s}, Table.get? f.slots k = some s → .inquiry k.function s.inquiry ∈ f.compiled.functions
  sources : ∀ {k s d}, Table.get? f.slots k = some s → s.lane.source = some d →
    s.inquiry.question d.context = .ok d
  tasks : ∀ a ∈ f.schedule.pending, a.task.IsBacked f.compiled.functions f.routes f.history
  moments : ∀ e ∈ f.history, e.moment ≤ f.schedule.now
  answers : ∀ e ∈ f.answers.entries, ∃ e' job v,
    Ground f.settings f.routes f.history e.1 e.2.value e.2.expires e' job v
  recalls : Each (Incident.IsGrounded f.settings f.routes) f.history

namespace Mindful

theorem of_isFresh (h : f.IsFresh) : f.Mindful where
  known := by rw [h.compiled]; exact fun n key i hn => by cases hn
  slots := by rw [h.slots]; exact fun hn => by cases hn
  sources := by rw [h.slots]; exact fun hn => by cases hn
  tasks := by rw [h.pending]; exact List.forall_mem_nil _
  moments := by rw [h.history]; exact List.forall_mem_nil _
  answers := by rw [h.answers]; exact List.forall_mem_nil _
  recalls := by rw [h.history]; trivial

theorem onSchedule (h : f.Mindful) (hp : ∀ a ∈ t.pending, a.task.IsBacked f.compiled.functions f.routes f.history)
    (hn : f.schedule.now ≤ t.now) : (f.onSchedule t).Mindful :=
  ⟨h.known, h.slots, h.sources, hp, fun e he => (h.moments e he).trans hn, h.answers, h.recalls⟩

theorem takes {a : Appointment Task} (h : f.Mindful) (ht : f.schedule.Takes a t) : (f.onSchedule t).Mindful :=
  h.onSchedule (fun b hb => h.tasks b (ht.mem_of_mem hb)) ht.now_le

theorem withoutTimer (h : f.Mindful) (timer : Option Nat) : (f.withoutTimer timer).Mindful := by
  cases timer with
  | none => exact h
  | some n => exact h.onSchedule (fun a ha => h.tasks a (List.mem_filter.mp ha).1) le_rfl

theorem booked (h : f.Mindful) (delay : Int) (task : Task)
    (hb : task.IsBacked f.compiled.functions f.routes f.history) : (f.booked delay task).Mindful := by
  refine h.onSchedule (fun a ha => ?_) le_rfl
  obtain rfl | ha := Schedule.mem_insert.mp ha
  · exact hb
  · exact h.tasks a ha

theorem withSlot (h : f.Mindful) (hi : .inquiry k.function s.inquiry ∈ f.compiled.functions)
    (hd : ∀ d, s.lane.source = some d → s.inquiry.question d.context = .ok d) : (f.withSlot k s).Mindful := by
  refine ⟨h.known, fun hj => ?_, fun hj hs => ?_, h.tasks, h.moments, h.answers, h.recalls⟩
  · obtain ⟨rfl, rfl⟩ | hj := Table.of_get?_put hj
    · exact hi
    · exact h.slots hj
  · obtain ⟨rfl, rfl⟩ | hj := Table.of_get?_put hj
    · exact hd _ hs
    · exact h.sources hj hs

theorem recorded {i : Inquiry} {e : InquiryEvent} (h : f.Mindful)
    (he : Incident.IsGrounded f.settings f.routes ⟨k, i, f.schedule.now, e⟩ f.history) :
    (f.recorded k i e).Mindful := by
  refine ⟨h.known, h.slots, h.sources, fun a ha => ?_, fun e' he' => ?_, fun a ha => ?_, h.recalls.cons he⟩
  · exact (h.tasks a ha).mono (List.Subset.refl _) (List.subset_cons_self _ _)
  · obtain rfl | he' := List.mem_cons.mp he'
    · exact le_rfl
    · exact h.moments e' he'
  · obtain ⟨e', job, v, hg⟩ := h.answers a ha
    exact ⟨e', job, v, hg.mono (List.subset_cons_self _ _)⟩

theorem remembered {b : Bool} (h : f.Mindful) {e : Incident} {v : Value}
    (hg : Ground f.settings f.routes f.history job.question.key b
      (f.schedule.now + max (s.inquiry.memoryMs f.settings) 0) e job v) : (f.remembered s job b).Mindful := by
  refine ⟨h.known, h.slots, h.sources, h.tasks, h.moments, fun a ha => ?_, h.recalls⟩
  obtain ⟨ha, -⟩ | rfl := Expiring.mem_of_mem_put ha
  · exact h.answers a ha
  · exact ⟨e, job, v, hg⟩

theorem consulted (h : f.Mindful) (key : String) : (f.consulted key).Mindful :=
  ⟨h.known, h.slots, h.sources, h.tasks, h.moments,
    fun a ha => h.answers a (Expiring.mem_of_mem_find? ha), h.recalls⟩

theorem answered {b : Bool} (h : f.Mindful) (hi : .inquiry k.function s.inquiry ∈ f.compiled.functions)
    (hd : ∀ d, s.lane.source = some d → s.inquiry.question d.context = .ok d) :
    (f.answered k s job b).Mindful :=
  (h.recorded fun _ _ he => by cases he).withSlot hi hd

/-- The inquiry of a slot is the one that a job of the slot is backed by. -/
theorem backed_unique (h : f.Mindful) (hi : .inquiry k.function s.inquiry ∈ f.compiled.functions)
    (hb : Backed f.compiled.functions f.routes f.history k job r) :
    s.inquiry.question job.question.context = .ok job.question ∧
      (s.inquiry.isRemote → ∀ v, r = .ok v → Served f.routes f.history k s.inquiry job v) := by
  obtain ⟨i, hi', hq, hs⟩ := hb
  rw [h.known.unique hi hi']
  exact ⟨hq, hs⟩

theorem jobEnded (h : f.Mindful) (hi : .inquiry k.function s.inquiry ∈ f.compiled.functions)
    (hd : ∀ d, s.lane.source = some d → s.inquiry.question d.context = .ok d)
    (hb : Backed f.compiled.functions f.routes f.history k job r) : (f.jobEnded k s job r).Mindful := by
  obtain ⟨hq, hserved⟩ := h.backed_unique hi hb
  have hg : ((f.recorded k s.inquiry (.ended job r)).withSlot k (s.finish job.number).1).Mindful :=
    (h.recorded fun _ _ he => by cases he).withSlot hi hd
  unfold Form.jobEnded
  dsimp only
  split
  · split
    · next b hj =>
      cases r with
      | error e => cases hj
      | ok v =>
        refine Mindful.answered (hg.remembered (v := v)
          (e := ⟨k, s.inquiry, f.schedule.now, .ended job (.ok v)⟩) ?_) hi hd
        exact ⟨List.mem_cons_self, rfl, hq, rfl, hj, rfl,
          fun hr => (hserved hr v rfl).mono (List.subset_cons_self _ _)⟩
    · exact hg.answered hi hd
  · exact hg

theorem jobStarted (h : f.Mindful) (hi : .inquiry k.function s.inquiry ∈ f.compiled.functions)
    (hd : ∀ d, s.lane.source = some d → s.inquiry.question d.context = .ok d)
    (hq : s.inquiry.question job.question.context = .ok job.question) : (f.jobStarted k s job).Mindful := by
  have hg : (f.recorded k s.inquiry (.started job)).Mindful := h.recorded fun _ _ he => by cases he
  have ha : Asks f.compiled.functions k job.question := ⟨s.inquiry, hi, hq⟩
  unfold Form.jobStarted
  dsimp only
  split
  · exact hg.booked 0 (.inquiryStart k job) ha
  · exact hg.jobEnded hi hd (ha.backed _)

theorem quietOver (h : f.Mindful) (hi : .inquiry k.function s.inquiry ∈ f.compiled.functions)
    (hd : ∀ d, s.lane.source = some d → s.inquiry.question d.context = .ok d) : (f.quietOver k s).Mindful := by
  obtain ⟨hinq, hsrc, hjob⟩ := s.settle_spec
  unfold Form.quietOver
  generalize s.settle = settled at hinq hsrc hjob ⊢
  rw [← hinq] at hi
  rw [← hsrc, ← hinq] at hd
  split
  · next job =>
    have hq := hd job.question (hsrc.trans (hjob job rfl))
    exact (h.withSlot hi hd).jobStarted hi hd hq
  · exact h.withSlot hi hd

theorem dispatched {d : Dispatch} (h : f.Mindful) (hi : .inquiry k.function s.inquiry ∈ f.compiled.functions)
    (hq : s.inquiry.question d.context = .ok d) : (f.dispatched k s d).Mindful := by
  have hd : ∀ d', some d = some d' → s.inquiry.question d'.context = .ok d' := fun d' he => by
    obtain rfl := Option.some.inj he
    exact hq
  have hg := h.withoutTimer s.lane.timer
  have hc : .inquiry k.function s.inquiry ∈ (f.withoutTimer s.lane.timer).compiled.functions := by
    cases s.lane.timer <;> exact hi
  unfold Form.dispatched
  dsimp only
  split
  · exact ((hg.booked _ (.inquiryQuiet k) trivial).recorded fun _ _ he => by cases he).withSlot hc hd
  · exact ((hg.recorded fun _ _ he => by cases he).withSlot (s := s.dispatch d none) hc hd).quietOver hc hd

theorem aside (h : f.Mindful) (ha : Aside f g) : g.Mindful := by
  cases ha with
  | noted => exact ⟨h.known, h.slots, h.sources, h.tasks, h.moments, h.answers, h.recalls⟩
  | ticked ht => exact h.onSchedule h.tasks ht
  | @served s t hv hr =>
    have hroutes : (f.withService t).routes = f.routes := by
      unfold Form.routes Form.withService
      rw [hv]
      exact hr
    refine ⟨h.known, h.slots, h.sources, ?_, h.moments, ?_, ?_⟩
    · rw [hroutes]
      exact h.tasks
    · rw [hroutes]
      exact h.answers
    · rw [hroutes]
      exact h.recalls
  | booked delay ht hk => exact h.booked _ _ (Task.isBacked_of_slot ht)
  | testOpened => exact ⟨h.known, h.slots, h.sources, h.tasks, h.moments, h.answers, h.recalls⟩
  | @testFollowed k d t ms ht hd b =>
    have told : (f.testTold k d b ms).Mindful := by
      refine testTold_cases (P := Mindful) h ?_
      have hb := (h.withoutTimer d.timer).booked ms (.testQuiet k) trivial
      exact ⟨hb.known, hb.slots, hb.sources, hb.tasks, hb.moments, hb.answers, hb.recalls⟩
    exact ⟨told.known, told.slots, told.sources, told.tasks, told.moments, told.answers, told.recalls⟩
  | testSettled ht ha hd =>
    have htaken := h.takes ht
    exact ⟨htaken.known, htaken.slots, htaken.sources, htaken.tasks, htaken.moments, htaken.answers, htaken.recalls⟩
  | testNoted => exact ⟨h.known, h.slots, h.sources, h.tasks, h.moments, h.answers, h.recalls⟩
  | testCancelled hl hd => exact h.withoutTimer _
  | testPut => exact ⟨h.known, h.slots, h.sources, h.tasks, h.moments, h.answers, h.recalls⟩
  | streamCancelled hs => exact h.withoutTimer _
  | streamPut hs ht => exact ⟨h.known, h.slots, h.sources, h.tasks, h.moments, h.answers, h.recalls⟩
  | streamTimed n s root ms =>
    have hb := h.booked ms (.streamQuiet n) trivial
    exact ⟨hb.known, hb.slots, hb.sources, hb.tasks, hb.moments, hb.answers, hb.recalls⟩
  | taken ht ha hk => exact h.takes ht

theorem move (h : f.Mindful) (hm : Move f g) : g.Mindful := by
  cases hm with
  | aside ha => exact h.aside ha
  | compiled hc =>
    refine ⟨h.known.grows hc, fun hs => hc.mem (h.slots hs), h.sources, fun a ha => ?_, h.moments,
      h.answers, h.recalls⟩
    exact (h.tasks a ha).mono (fun _ => hc.mem) (List.Subset.refl _)
  | opened hi hs => exact h.withSlot hi nofun
  | consulted key => exact h.consulted key
  | @recalled k i c d b hi hd hb =>
    refine (h.consulted d.key).recorded fun d' b' he => ?_
    cases he
    obtain ⟨expires, hmem, hlt⟩ := Expiring.mem_of_find? hb
    obtain ⟨e, job, v, hg⟩ := h.answers _ hmem
    exact ⟨expires, e, job, v, hg, h.moments e hg.mem, hlt, c, hd⟩
  | @dispatched k i s c d hi hs hd =>
    have hi' := h.slots hs
    obtain rfl := h.known.unique hi hi'
    obtain ⟨-, -, hc⟩ := Inquiry.question_cases hd
    exact h.dispatched hi' (by rw [hc]; exact hd)
  | quietOver ht ha hs => exact (h.takes ht).quietOver (h.slots hs) fun d hd => h.sources hs hd
  | @asked a t k s job r ht ha hs hr =>
    have hb := h.tasks a ht.mem
    rw [ha] at hb
    obtain ⟨hq, -⟩ := h.backed_unique (h.slots hs) (Asks.backed hb .badValue)
    have hf := (h.takes ht).recorded (k := k) (i := s.inquiry) (e := .asked job r) fun _ _ he => by cases he
    refine hf.booked r.delay (.inquiryReply k job r.outcome) ⟨s.inquiry, h.slots hs, hq, fun hrem v hv => ?_⟩
    obtain ⟨service, hroutes, hreply⟩ := hr hrem
    exact ⟨_, List.mem_cons_self, r, service, rfl, rfl, rfl, hroutes, hreply, hv⟩
  | @failed a t k s job e ht ha hs =>
    have hb := h.tasks a ht.mem
    rw [ha] at hb
    exact (h.takes ht).jobEnded (h.slots hs) (fun d hd => h.sources hs hd) (Asks.backed hb e)
  | @replied a t k s job r ht ha hs =>
    have hb := h.tasks a ht.mem
    rw [ha] at hb
    exact (h.takes ht).jobEnded (h.slots hs) (fun d hd => h.sources hs hd) hb
  | lapsed ht ha hs => exact h.takes ht

theorem turn (h : f.Mindful) (ht : Turn f g) : g.Mindful := by
  cases ht with
  | move hm => exact h.move hm
  | wrote v => exact ⟨h.known, h.slots, h.sources, h.tasks, h.moments, h.answers, h.recalls⟩
  | adjusted => exact ⟨h.known, h.slots, h.sources, h.tasks, h.moments, h.answers, h.recalls⟩
  | attached => exact ⟨h.known, h.slots, h.sources, h.tasks, h.moments, h.answers, h.recalls⟩
  | streamed s hs => exact ⟨h.known, h.slots, h.sources, h.tasks, h.moments, h.answers, h.recalls⟩

theorem of_reachable (h : f.Reachable) : f.Mindful :=
  h.induct (fun _ => of_isFresh) (fun _ _ ht h => h.turn ht) fun _ _ h =>
    ⟨h.known, h.slots, h.sources, h.tasks, h.moments, h.answers, h.recalls⟩

end Mindful
end Form
end FormRules
