import FormRules.Condition.Basic
import FormRules.Context
import FormRules.Functions
import FormRules.Time.Pending

/-!
# Slots of inquiries

The state of one inquiry at one field. What is to be asked is dispatched, waits for a quiet period, and
is asked by a job unless the latest job asked the same; the outcome of the latest job is what the
inquiry answers from then on.
-/

namespace FormRules

/-- A question with everything that it depends on; questions with one key are the same. -/
structure Dispatch where
  key : String
  /-- The resolved request, or the function and its evaluated parameters. -/
  snapshot : Value
  context : Context

/-- The state of one inquiry at one field. -/
structure Slot where
  inquiry : Inquiry
  lane : Debounced (Option Dispatch) := ⟨none, none, none⟩
  jobs : Latest := {}
  /-- The key of the last dispatch. -/
  lastKey : Option String := none
  /-- What the inquiry answers. -/
  result : Bool

/-- A job that asks a question. -/
structure InquiryJob where
  number : Nat
  question : Dispatch

namespace Slot

/-- A slot before anything has been asked. -/
def fresh (i : Inquiry) : Slot := { inquiry := i, result := i.pending }

def sameQuestion (a b : Option Dispatch) : Bool := a.map (·.key) = b.map (·.key)

/-- Whether a question differs from the last one dispatched. -/
def isNew (s : Slot) (key : String) : Bool := s.lastKey ≠ some key

/-- Dispatches a question, with the timer of its quiet period. -/
def dispatch (s : Slot) (d : Dispatch) (timer : Option Nat) : Slot :=
  { s with lastKey := some d.key, lane := s.lane.change (some d) timer }

/-- The end of a quiet period starts a job, unless the latest one asked the same. -/
def settle (s : Slot) : Slot × Option InquiryJob :=
  match s.lane.settle sameQuestion with
  | (lane, some (some d)) =>
    let jobs := s.jobs.start
    ({ s with lane, jobs }, some ⟨jobs.generation, d⟩)
  | (lane, _) => ({ s with lane }, none)

/-- Ends a job; says whether it delivers. -/
def finish (s : Slot) (job : Nat) : Slot × Bool :=
  let (jobs, delivers) := s.jobs.finish job
  ({ s with jobs }, delivers)

/-- Takes over an answer. -/
def answer (s : Slot) (b : Bool) : Slot := { s with result := b }

end Slot
end FormRules

/-!
## What happens to inquiries

Questions are dispatched; jobs are started, ask and end; answers are published or recalled from memory. Nothing is
decided by these events: they are what can be said afterwards about how a form came to be as it is.
-/

namespace FormRules

/-- Something that happened to an inquiry at one field. -/
inductive InquiryEvent
  /-- A question was dispatched, with the timer of its quiet period; without a loop there is none. -/
  | dispatched (question : Dispatch) (timer : Option Nat)
  | started (job : InquiryJob)
  /-- A job asked, and was given the reply that it has to wait for. -/
  | asked (job : InquiryJob) (reply : Reply Value)
  /-- A job ended with a response, or with a fault in its place. -/
  | ended (job : InquiryJob) (response : Outcome Value)
  /-- The outcome of a job became the answer of the slot, which was in this state before. -/
  | published (slot : Slot) (job : InquiryJob) (answer : Bool)
  /-- A question was answered by what was remembered. -/
  | recalled (question : Dispatch) (answer : Bool)

end FormRules
