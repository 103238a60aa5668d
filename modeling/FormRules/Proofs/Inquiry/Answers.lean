import FormRules.Proofs.Inquiry.Memory
import FormRules.Proofs.Inquiry.Tracking

/-!
# What inquiries answer

An inquiry that is at rest answers with the outcome of the question that was dispatched last. Until then
it goes on answering with what has been published, and that is always the outcome of the latest job:
but a question takes the place of another one only when its own quiet period is over, so that during
this time the outcome of the question before it may still be published. What is recalled from memory is
what some inquiry, not always the one that recalls it, made of a response to the same request.
-/

namespace FormRules

/-! ## An example: a lookup by the value of its field -/

/-- A request for the value of the field that it is made at. -/
def lookupRequest : Request where
  url := "/a"
  method := .null
  queryParams := [(.name "q", .text "fieldValue")]
  body := .undefined
  headers := []
  evaluateBody := false

/-- An inquiry that looks up the value of its field, and does not remember answers. -/
def lookup : Inquiry where
  source := .remote lookupRequest .null
  pending := false
  cacheMs := some 0
  debounceMs := some 50

/-- A form whose service needs some time for an answer. -/
def lookupForm : Form where
  value := .map [(.name "q", .text "a")]
  service := some { routes := [("*", [⟨100, .response (.bool true)⟩])] }

/-- A lookup of the field. -/
def lookUp : Operation := .evaluate none (.inquiry lookup) [.name "q"]

/-- The slot of the lookup. -/
def lookupSlot : SlotKey := ⟨(Condition.inquiry lookup).key, [.name "q"]⟩

namespace Form
variable {f : Form} {k : SlotKey} {s : Slot}

theorem lookupForm_reachable : lookupForm.Reachable := .fresh rfl

/-- The lookup form when the answer has arrived. -/
def looked : Form := lookupForm.runAll [lookUp, .advance 200]

/-- The lookup form when the answer has arrived after another question has been dispatched. -/
def overtaken : Form :=
  lookupForm.runAll [lookUp, .advance 110, .update (.set [.name "q"] (.text "b")), lookUp, .advance 45]

/-- An inquiry at rest, with no quiet period begun and no job under way, answers as if it were pending if
nothing has ever been dispatched. Otherwise the latest job asked the question that was dispatched last,
it has ended, and the answer is what its response stands for; a failure counts as pending. -/
theorem answer_at_rest (h : f.Reachable) (hs : (f.thread k).slot = some s) (ht : (f.thread k).timers = 0)
    (hf : (f.thread k).flights = 0) :
    (s.lastKey = none → s.result = s.inquiry.pending) ∧
    ∀ key, s.lastKey = some key → ∃ job r,
      (startedJobs (f.thread k).past).head? = some job ∧ job.question.key = key ∧
      HasEnded (f.thread k).past job r ∧ s.result = s.inquiry.answerOf job r := by
  have hk := (Tracking.of_reachable h).tracks hs
  have hq : s.lane.settled.map (·.key) = s.lastKey := by
    rw [hk.lastKey]
    exact hk.quiet (Classical.not_not.mp fun hn => hk.timed hn ht)
  rw [hk.settled] at hq
  cases hj : (startedJobs (f.thread k).past).head? with
  | none =>
    rw [hj] at hq
    refine ⟨fun _ => hk.opening (List.head?_eq_none_iff.mp hj), fun key hkey => ?_⟩
    rw [hkey] at hq
    cases hq
  | some job =>
    rw [hj] at hq
    refine ⟨fun hnone => ?_, fun key hkey => ?_⟩
    · rw [hnone] at hq
      cases hq
    · rw [hkey] at hq
      obtain hfl | ⟨r, hr, he⟩ := hk.latest job hj
      · rw [hf] at hfl
        simp at hfl
      · exact ⟨job, r, rfl, Option.some.inj hq, hr, he⟩

theorem thread_of_idle (h : f.schedule.pending = []) : (f.thread k).timers = 0 ∧ (f.thread k).flights = 0 := by
  unfold thread Schedule.collect
  rw [h]
  exact ⟨rfl, rfl⟩

set_option maxRecDepth 100000 in
/-- The lookup has come to rest with the answer of the service. -/
theorem answer_at_rest_looked : ∃ s job r, (looked.thread lookupSlot).slot = some s ∧
    (startedJobs (looked.thread lookupSlot).past).head? = some job ∧
    HasEnded (looked.thread lookupSlot).past job r ∧ s.result = s.inquiry.answerOf job r ∧ s.result = true := by
  have hp : looked.schedule.pending = [] := List.isEmpty_iff.mp (by decide +kernel)
  have hs : (looked.thread lookupSlot).slot.map (fun s => (s.result, s.lastKey.isSome)) =
      some (true, true) := by decide +kernel
  obtain ⟨s, hs, he⟩ := Option.map_eq_some_iff.mp hs
  obtain ⟨hr, hk⟩ := Prod.mk.inj he
  obtain ⟨key, hk⟩ := Option.isSome_iff_exists.mp hk
  obtain ⟨ht, hf⟩ := thread_of_idle (k := lookupSlot) hp
  have h := answer_at_rest (lookupForm_reachable.runAll [lookUp, .advance 200]) hs ht hf
  obtain ⟨job, r, hj, -, hend, hres⟩ := h.2 key hk
  exact ⟨s, job, r, hs, hj, hend, hres, hr⟩

/-- What an inquiry answers is what has been published last. Whatever is published is the outcome of the
latest job, which has just ended; and that job asked the question that was dispatched last unless a
quiet period has begun for another one. -/
theorem published_of_latest (h : f.Reachable) :
    (∀ k s, (f.thread k).slot = some s →
      s.result = (publishedAnswers (f.thread k).past).head?.getD s.inquiry.pending) ∧
    ∀ newer e older s job b, f.history = newer ++ e :: older → e.event = .published s job b →
      (startedJobs (older.filter (·.slot = e.slot))).head? = some job ∧
      (∃ r, older.head? = some { e with event := .ended job r } ∧ b = e.inquiry.answerOf job r) ∧
      (s.lastKey = some job.question.key ↔
        ¬ (s.lane.timer ≠ none ∧ s.lane.source.map (·.key) ≠ some job.question.key)) := by
  have ht := Tracking.of_reachable h
  refine ⟨fun k s hs => (ht.tracks hs).shown, fun newer e older s job b hh he => ?_⟩
  have hsound := ht.sound
  rw [hh] at hsound
  obtain ⟨hj, hset, hlast, hquiet, hout⟩ := hsound.of_append s job b he
  refine ⟨hj, hout, ?_⟩
  rw [hlast]
  constructor
  · exact fun hkey hne => hne.2 hkey
  · intro hne
    by_cases htimer : s.lane.timer = none
    · rw [← hquiet htimer, hset]
      rfl
    · exact Classical.not_not.mp fun hkey => hne ⟨htimer, hkey⟩

/-- Whether the last thing that has happened is that an answer was published which has been overtaken. -/
def publishesOvertaken (f : Form) : Bool :=
  match f.history.head? with
  | some e => match e.event with
    | .published s job _ => s.lane.timer.isSome && s.lastKey != some job.question.key
    | _ => false
  | none => false

theorem cases_of_publishesOvertaken (h : f.publishesOvertaken = true) :
    ∃ e older s job b, f.history = e :: older ∧ e.event = .published s job b ∧ s.lane.timer ≠ none ∧
      s.lastKey ≠ some job.question.key := by
  unfold publishesOvertaken at h
  split at h
  · next e he =>
    obtain ⟨older, hh⟩ := List.head?_eq_some_iff.mp he
    split at h
    · next s job b hev =>
      rw [Bool.and_eq_true, bne_iff_ne, Option.isSome_iff_ne_none] at h
      exact ⟨e, older, s, job, b, hh, hev, h⟩
    · cases h
  · cases h

set_option maxRecDepth 100000 in
/-- The answer to a question is published while the quiet period of the next one goes on. -/
theorem published_of_latest_overtaken : ∃ e older s job b, overtaken.history = e :: older ∧
    e.event = .published s job b ∧ (startedJobs (older.filter (·.slot = e.slot))).head? = some job ∧
    s.lane.timer ≠ none ∧ s.lastKey ≠ some job.question.key := by
  obtain ⟨e, older, s, job, b, hh, hev, hb⟩ := cases_of_publishesOvertaken (f := overtaken) (by decide +kernel)
  have h := (published_of_latest (lookupForm_reachable.runAll _)).2 [] e older s job b hh hev
  exact ⟨e, older, s, job, b, hh, hev, h.1, hb⟩

/-! ## Answers from memory -/

/-- Whenever an inquiry that asks the service answers from memory, the answer is what the inquiry whose job
stored it made of a response of the service. That job asked the same request, and it ended no longer ago
than that inquiry wants its answers to be remembered. -/
theorem recalled_of_response {newer older : List Incident} {e : Incident} {d : Dispatch} {b : Bool}
    (h : f.Reachable) (hh : f.history = newer ++ e :: older) (he : e.event = .recalled d b) (hr : e.inquiry.isRemote) :
    ∃ e' ∈ older, ∃ job v, e'.event = .ended job (.ok v) ∧ e'.inquiry.isRemote ∧
      job.question.snapshot.canonical = d.snapshot.canonical ∧
      Served f.routes older e'.slot e'.inquiry job v ∧
      e'.inquiry.judge job.question.context (.ok v) = .ok b ∧
      e'.moment ≤ e.moment ∧ e.moment < e'.moment + e'.inquiry.memoryMs f.settings := by
  have hrecalls := (Mindful.of_reachable h).recalls
  rw [hh] at hrecalls
  obtain ⟨expires, e', job, v, hg, hle, hlt, c, hq⟩ := hrecalls.of_append d b he
  have hremote := Inquiry.isRemote_of_key hr hq hg.question hg.key_eq.symm
  obtain ⟨-, hkey, -⟩ := Inquiry.question_cases hq
  obtain ⟨-, hkey', -⟩ := Inquiry.question_cases hg.question
  refine ⟨e', hg.mem, job, v, hg.event, hremote, ?_, hg.served hremote, hg.judged, hle, ?_⟩
  · rw [← hkey, ← hkey', hg.key_eq]
  · rw [hg.expires_eq] at hlt
    omega

/-- A lookup whose answers are remembered. -/
def rememberedLookup : Inquiry := { lookup with cacheMs := some 1000 }

/-- The lookup that holds where the service answers that it does not. -/
def deniedLookup : Inquiry := { rememberedLookup with source := .remote lookupRequest (.text "!response") }

/-- The lookup whose answers are not to be remembered for long. -/
def briefLookup : Inquiry := { lookup with cacheMs := some 10 }

/-- The lookup form when an inquiry is evaluated after the remembered lookup has been answered. -/
def recalling (i : Inquiry) : Form :=
  lookupForm.runAll [.evaluate none (.inquiry rememberedLookup) [.name "q"], .advance 200,
    .evaluate none (.inquiry i) [.name "q"]]

/-- Whether the last thing that has happened is that an inquiry of the service answered from memory. -/
def recallsLast (f : Form) : Bool :=
  match f.history.head? with
  | some e => match e.event, e.inquiry.source with
    | .recalled _ _, .remote _ _ => true
    | _, _ => false
  | none => false

theorem cases_of_recallsLast (h : f.recallsLast = true) : ∃ e older d b, f.history = e :: older ∧
    e.event = .recalled d b ∧ e.inquiry.isRemote := by
  unfold recallsLast at h
  split at h
  · next e he =>
    obtain ⟨older, hh⟩ := List.head?_eq_some_iff.mp he
    split at h
    · next d b r x hd hs => exact ⟨e, older, d, b, hh, hd, r, x, hs⟩
    · cases h
  · cases h

set_option maxRecDepth 100000 in
/-- The lookup is answered from memory the second time. -/
theorem recalled_of_response_lookup : ∃ e older d b, (recalling rememberedLookup).history = e :: older ∧
    e.event = .recalled d b ∧ ∃ e' ∈ older, ∃ job v, e'.event = .ended job (.ok v) ∧
    e'.inquiry.judge job.question.context (.ok v) = .ok b := by
  obtain ⟨e, older, d, b, hh, he, hr⟩ :=
    cases_of_recallsLast (f := recalling rememberedLookup) (by decide +kernel)
  obtain ⟨e', hm, job, v, hev, -, -, -, hj, -⟩ :=
    recalled_of_response (lookupForm_reachable.runAll _) (show _ = [] ++ e :: older from hh) he hr
  exact ⟨e, older, d, b, hh, he, e', hm, job, v, hev, hj⟩

/-- Behind every answer that an inquiry of the service gives from memory there is a job that asked the same
and has ended with a response of some kind. -/
def RecallsFrom (P : Settings → Incident → Dispatch → Bool → Incident → Value → Prop) : Prop :=
  ∀ f : Form, f.Reachable → ∀ newer older e d b, f.history = newer ++ e :: older →
    e.event = .recalled d b → e.inquiry.isRemote → ∃ e' ∈ older, ∃ job v, e'.event = .ended job (.ok v) ∧
      job.question.key = d.key ∧ P f.settings e d b e' v

/-- Whether the last thing that has happened is that an answer was given from memory with no such job
behind it. -/
def recallsWithout (f : Form) (test : Incident → Dispatch → Bool → Incident → Value → Bool) : Bool :=
  match f.history with
  | [] => false
  | e :: older => match e.event with
    | .recalled d b => older.all fun e' => match e'.event with
      | .ended job (.ok v) => !(job.question.key = d.key && test e d b e' v)
      | _ => true
    | _ => false

theorem not_recallsFrom {P : Settings → Incident → Dispatch → Bool → Incident → Value → Prop}
    {t : Incident → Dispatch → Bool → Incident → Value → Bool} (hf : f.Reachable) (hr : f.recallsLast = true)
    (ht : ∀ e d b e' v, P f.settings e d b e' v → t e d b e' v = true) (hw : f.recallsWithout t = true) :
    ¬ RecallsFrom P := by
  intro h
  obtain ⟨e, older, d, b, hh, he, hi⟩ := cases_of_recallsLast hr
  obtain ⟨e', hm, job, v, hev, hk, hp⟩ := h f hf [] older e d b hh he hi
  rw [recallsWithout, hh] at hw
  simp only [he, List.all_eq_true] at hw
  have hn := hw e' hm
  simp [hev, hk, ht e d b e' v hp] at hn

/-- Whether an inquiry takes a response for an answer. -/
def takesFor (i : Inquiry) (c : Context) (v : Value) (b : Bool) : Bool :=
  match i.judge c (.ok v) with
  | .ok a => b = a
  | .error _ => false

set_option maxRecDepth 100000 in
/-- What is recalled need not be what the inquiry itself would have made of a response, nor as young as it
wants its own answers to be: another one that asks the same may have stored it. -/
theorem not_recalled_of_own :
    ¬ RecallsFrom (fun _ e d b _ v => e.inquiry.judge d.context (.ok v) = .ok b) ∧
    ¬ RecallsFrom (fun settings e _ _ e' _ => e.moment < e'.moment + e.inquiry.memoryMs settings) := by
  constructor
  · refine not_recallsFrom (f := recalling deniedLookup) (lookupForm_reachable.runAll _) (by decide +kernel)
      (t := fun e d b _ v => takesFor e.inquiry d.context v b) (fun e d b _ v hj => ?_) (by decide +kernel)
    simp [takesFor, hj]
  · refine not_recallsFrom (f := recalling briefLookup) (lookupForm_reachable.runAll _) (by decide +kernel)
      (t := fun e _ _ e' _ => e.moment < e'.moment + e.inquiry.memoryMs (recalling briefLookup).settings)
      (fun e _ _ e' _ hj => decide_eq_true hj) (by decide +kernel)

end Form
end FormRules
