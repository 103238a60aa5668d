import FormRules.Form.Basic
import FormRules.Inquiry.Answer
import FormRules.Inquiry.Slot
import Mathlib.Tactic.SplitIfs

/-!
# Answers, slots and the history of inquiries

What an inquiry makes of a response, which depends on the inquiry and on the context of the question only, not on what
has been reported before. What the end of a quiet period and the end of a job do to the slot of an inquiry. Readings of
what has happened to inquiries, and properties that every incident has by what happened before it.
-/

namespace FormRules

/-! ## Answers -/

theorem Value.asBoolean_run (v : Value) (site : String) (j : Journal) :
    ((v.asBoolean site).run j).1 = v.truthy := by
  cases v <;> rfl

namespace Inquiry

/-- Whether a service is asked. -/
def isRemote (i : Inquiry) : Prop := ∃ r e, i.source = .remote r e

/-- The value whose truth is the answer: that of the response expression, or the response itself. -/
def decisive (i : Inquiry) (c : Context) (response : Value) : Outcome Value :=
  match i.source with
  | .remote _ e =>
    if e.given then Expr.evaluateValue e (c.scopeWith [("response", response)]) else .ok response
  | .async _ _ => .ok response

/-- The answer that a response stands for in a context. -/
def judge (i : Inquiry) (c : Context) (response : Outcome Value) : Outcome Bool := do
  return (← i.decisive c (← response)).truthy

theorem judge_ok (i : Inquiry) (c : Context) (v : Value) :
    i.judge c (.ok v) = (i.decisive c v).map Value.truthy := by
  unfold judge
  simp only [bind, Except.bind]
  cases i.decisive c v <;> rfl

theorem outcome_run (i : Inquiry) (c : Context) (response : Outcome Value) (j : Journal) :
    ((i.outcome c response).run j).1 = i.judge c response := by
  cases response with
  | error e => rfl
  | ok v =>
    rw [judge_ok]
    unfold outcome interpret decisive
    cases i.source with
    | async f ps => exact congrArg Except.ok (Value.asBoolean_run v _ j)
    | remote r e =>
      dsimp only
      split
      · cases h : Expr.evaluateValue e (c.scopeWith [("response", v)]) with
        | error e => rfl
        | ok w => exact congrArg Except.ok (Value.asBoolean_run w _ j)
      · rfl

end Inquiry

/-! ## Slots -/

theorem Debounced.settle_timer {α : Type} (same : α → α → Bool) (d : Debounced α) :
    (d.settle same).1.timer = none := by
  unfold settle
  split_ifs <;> rfl

namespace Slot
variable {s : Slot}

theorem sameQuestion_iff {a b : Option Dispatch} : sameQuestion a b = true ↔ a.map (·.key) = b.map (·.key) := by
  simp [sameQuestion]

/-- Nothing is asked anew if the question is the one that the latest job asked. -/
theorem settle_of_same (h : s.lane.settled.map (·.key) = s.lane.source.map (·.key)) :
    s.settle = ({ s with lane := { s.lane with timer := none } }, none) := by
  have hd : s.lane.settle sameQuestion = ({ s.lane with timer := none }, none) :=
    if_pos (sameQuestion_iff.mpr h)
  unfold settle
  rw [hd]

/-- Another question is asked by a job of its own. -/
theorem settle_of_ne {d : Dispatch} (hs : s.lane.source = some d)
    (h : s.lane.settled.map (·.key) ≠ some d.key) :
    s.settle =
      ({ s with lane := ⟨some d, some d, none⟩, jobs := s.jobs.start }, some ⟨s.jobs.generation + 1, d⟩) := by
  have hd : s.lane.settle sameQuestion = (⟨some d, some d, none⟩, some (some d)) := by
    unfold Debounced.settle
    rw [if_neg (by rw [sameQuestion_iff, hs]; exact h), hs]
  unfold settle
  rw [hd]
  rfl

theorem settle_timer (s : Slot) : s.settle.1.lane.timer = none := by
  have h := Debounced.settle_timer sameQuestion s.lane
  unfold settle
  split <;> next he => rw [he] at h; exact h

/-- The end of a quiet period keeps the inquiry and the question; a job that it starts asks that question. -/
theorem settle_spec (s : Slot) : s.settle.1.inquiry = s.inquiry ∧ s.settle.1.lane.source = s.lane.source ∧
    ∀ job, s.settle.2 = some job → s.lane.source = some job.question := by
  by_cases h : s.lane.settled.map (·.key) = s.lane.source.map (·.key)
  · rw [settle_of_same h]
    exact ⟨rfl, rfl, nofun⟩
  · cases hd : s.lane.source with
    | none =>
      have hn : s.lane.settle sameQuestion = (⟨none, none, none⟩, some none) := by
        unfold Debounced.settle
        rw [if_neg (by rw [sameQuestion_iff]; exact h), hd]
      unfold settle
      rw [hn]
      exact ⟨rfl, rfl, nofun⟩
    | some d =>
      rw [hd] at h
      rw [settle_of_ne hd h]
      refine ⟨rfl, rfl, fun job hj => ?_⟩
      obtain rfl := Option.some.inj hj
      rfl

theorem finish_delivers {n : Nat} :
    (s.finish n).2 = true ↔ n ∈ s.jobs.running ∧ n = s.jobs.generation := by
  simp [finish, Latest.finish]

end Slot

/-! ## Incidents, the latest first -/

namespace InquiryEvent

/-- The job that is started. -/
def started? : InquiryEvent → Option InquiryJob
  | started job => some job
  | _ => none

/-- The answer that is published. -/
def published? : InquiryEvent → Option Bool
  | published _ _ b => some b
  | _ => none

end InquiryEvent

section
variable (past : List Incident)

/-- The jobs that have been started, the latest first. -/
def startedJobs : List InquiryJob := past.filterMap (·.event.started?)

/-- The answers that have been published, the latest first. -/
def publishedAnswers : List Bool := past.filterMap (·.event.published?)

/-- A job has ended with a response. -/
def HasEnded (job : InquiryJob) (response : Outcome Value) : Prop := ∃ e ∈ past, e.event = .ended job response

variable {past} {e : Incident}

theorem mem_startedJobs {job : InquiryJob} : job ∈ startedJobs past ↔ ∃ e ∈ past, e.event = .started job := by
  rw [startedJobs, List.mem_filterMap]
  constructor
  · rintro ⟨e, he, hj⟩
    refine ⟨e, he, ?_⟩
    cases hev : e.event <;> rw [hev] at hj <;> cases hj
    rfl
  · rintro ⟨e, he, hj⟩
    exact ⟨e, he, by rw [hj]; rfl⟩

theorem startedJobs_cons_of_none (h : e.event.started? = none) : startedJobs (e :: past) = startedJobs past :=
  List.filterMap_cons_none h

theorem publishedAnswers_cons_of_none (h : e.event.published? = none) :
    publishedAnswers (e :: past) = publishedAnswers past := List.filterMap_cons_none h

end

/-- Every incident is as it should be after those before it. -/
def Each {α : Type} (P : α → List α → Prop) : List α → Prop
  | [] => True
  | e :: older => P e older ∧ Each P older

section
variable {α : Type} {P : α → List α → Prop} {newer older : List α} {e : α}

theorem Each.cons (he : P e older) (h : Each P older) : Each P (e :: older) := ⟨he, h⟩

theorem Each.of_append (h : Each P (newer ++ e :: older)) : P e older := by
  induction newer with
  | nil => exact h.1
  | cons a newer ih => exact ih h.2

end

end FormRules
