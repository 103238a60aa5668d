import FormRules.Form.Basic

/-!
# Compiled functions at work

Calling what conditions are compiled to, at a field of a form. Reads are recorded, so that a watcher
knows what its state depends on; `notify` tells the watchers of a source that it has changed.
-/

namespace FormRules

namespace Live

/-- The context of a field over a value of the form. -/
def fieldContext (root : Value) (field : List Key) : Live Context := do
  track .value
  track .external
  return Context.forKeys root field (← get).external none

def compile (quietMs : Option Int) (c : Condition) : Live Nat := do
  let f ← get
  let (n, compiled) := f.compiled.condition quietMs c
  set { f with compiled }
  return n

def compileValidator (v : Validator) : Live CompiledValidator := do
  let f ← get
  let (w, compiled) ← ofOutcome (f.compiled.validator f.functions v)
  set { f with compiled }
  return w

/-- The compiled function at a position. -/
def functionAt (n : Nat) : Live LogicFunction := do
  match (← get).compiled.functions[n]? with
  | some f => return f
  | none => throw (.breach .outOfRange)

/-- The value of an expression in a context, `undefined` if it has none. -/
def valueOf (e : Value) (c : Context) : Live Value := do
  modify fun f => { f with compiled := (f.compiled.valueExpression e).2 }
  ofReporting (Expr.valueOrReport e c)

def testHolds (t : Test) (root : Value) (field : List Key) : Live Bool := do
  let c ← fieldContext root field
  let fs := (← get).functions
  ofReporting (t.holds fs.customFunctions c)

/-! ## Inquiries -/

def slot? (k : SlotKey) : Live (Option Slot) := do return Table.get? (← get).slots k

def putSlot (k : SlotKey) (s : Slot) : Live Unit :=
  modify fun f => { f with slots := Table.put f.slots k s }

def record (k : SlotKey) (i : Inquiry) (e : InquiryEvent) : Live Unit :=
  modify fun f => { f with history := ⟨k, i, f.schedule.now, e⟩ :: f.history }

section
variable (notify : Source → Live Unit)

/-- The outcome of a job is the answer of an inquiry from now on. -/
def answer (k : SlotKey) (s : Slot) (job : InquiryJob) (b : Bool) : Live Unit := do
  record k s.inquiry (.published s job b)
  putSlot k (s.answer b)
  if s.result ≠ b then notify (.answer k)

/-- A job of an inquiry has ended with a response or a fault. The outcome of the latest one counts:
its answer is remembered, and its failure is reported and answered as if it were pending. -/
def inquiryEnded (k : SlotKey) (job : InquiryJob) (response : Outcome Value) : Live Unit := do
  let some s ← slot? k | return
  record k s.inquiry (.ended job response)
  -- the response is interpreted, and what that reports is reported, even if a later job has been started
  let outcome ← ofReporting (s.inquiry.outcome job.question.context response)
  let (s, delivers) := s.finish job.number
  putSlot k s
  if !delivers then return
  match outcome with
  | .ok b =>
    modify fun f => { f with
      answers := f.answers.put f.schedule.now job.question.key b (s.inquiry.memoryMs f.settings) }
    answer notify k s job b
  | .error _ =>
    report .lookupFailed
    answer notify k s job s.inquiry.pending

/-- The quiet period of an inquiry is over: its job starts, if there is a loop to run it. -/
def inquiryQuiet (k : SlotKey) : Live Unit := do
  let some s ← slot? k | return
  let (s, job) := s.settle
  putSlot k s
  let some job := job | return
  record k s.inquiry (.started job)
  if (← get).hasLoop then
    let _ ← schedule 0 (.inquiryStart k job)
  else guarded (inquiryEnded notify k job
    (.error (.raised "no running event loop to resolve asynchronously")))

/-- Dispatches a question: a quiet period begins, and one that has begun is broken off. -/
def dispatch (k : SlotKey) (s : Slot) (d : Dispatch) : Live Unit := do
  cancel s.lane.timer
  let f ← get
  if f.hasLoop then
    let timer ← schedule (s.inquiry.quietMs f.settings) (.inquiryQuiet k)
    record k s.inquiry (.dispatched d timer)
    putSlot k (s.dispatch d timer)
  else
    record k s.inquiry (.dispatched d none)
    putSlot k (s.dispatch d none)
    guarded (inquiryQuiet notify k)

/-- The answer that is in effect. -/
def currentAnswer (k : SlotKey) (pending : Bool) : Live Bool := do
  track (.answer k)
  return ((← slot? k).map (·.result)).getD pending

/-- Makes the slot of an inquiry when it is first needed. -/
def openSlot (k : SlotKey) (i : Inquiry) : Live Unit := do
  if (← slot? k).isNone then putSlot k (.fresh i)

/-- The answer to a question: a remembered one to the same question at once, else the one that is in
effect, after the question has been dispatched if it is new. -/
def ask (k : SlotKey) (i : Inquiry) (d : Dispatch) : Live Bool := do
  let f ← get
  let (known, answers) := f.answers.find? f.schedule.now d.key
  set { f with answers }
  match known with
  | some b =>
    record k i (.recalled d b)
    return b
  | none =>
    let some s ← slot? k | return i.pending
    if s.isNew d.key then dispatch notify k s d
    currentAnswer k i.pending

/-- The answer of an inquiry at a field; the one that is in effect if it has no question there. -/
def inquire (key : String) (i : Inquiry) (root : Value) (field : List Key) : Live Bool := do
  let k : SlotKey := ⟨key, field⟩
  openSlot k i
  let c ← fieldContext root field
  match i.question c with
  | .error _ =>
    report .lookupUnresolved
    currentAnswer k i.pending
  | .ok d => ask notify k i d

/-- Asks the function or the service that decides an inquiry. -/
def replyTo (i : Inquiry) (d : Dispatch) : Live (Outcome (Reply Value)) := do
  let f ← get
  match i.source with
  | .async name _ => return Inquiry.askFunction f.functions name d
  | .remote _ _ =>
    match f.service with
    | none => return .error (.unresolved d.key none (.text "no transport configured"))
    | some service => .ok <$> send service d.snapshot

def inquiryStart (k : SlotKey) (job : InquiryJob) : Live Unit := do
  let some s ← slot? k | return
  match ← replyTo s.inquiry job.question with
  | .ok r =>
    record k s.inquiry (.asked job r)
    let _ ← schedule r.delay (.inquiryReply k job r.outcome)
  | .error e => inquiryEnded notify k job (.error e)

/-! ## Tests that have to be quiet -/

def recordTest (k : SlotKey) (onTime : Bool) (e : TestEvent) : Live Unit :=
  modify fun f => { f with tests := ⟨k, f.schedule.now, onTime, e⟩ :: f.tests }

/-- The quiet period of a test is over. -/
def testQuiet (k : SlotKey) : Live Unit := do
  let some d := Table.get? (← get).delayed k | return
  let (d, changed) := d.settle fun a b => a = b
  modify fun f => { f with delayed := Table.put f.delayed k d }
  if changed.isSome then notify (.settled k)

/-- The result of a test changes: a quiet period begins, and one that has begun is broken off. -/
def testChanged (k : SlotKey) (d : Debounced (Option Bool)) (b : Bool) (quietMs : Int) : Live Unit := do
  cancel d.timer
  if (← get).hasLoop then
    let timer ← schedule quietMs (.testQuiet k)
    modify fun f => { f with delayed := Table.put f.delayed k (d.change (some b) timer) }
  else
    modify fun f => { f with delayed := Table.put f.delayed k (d.change (some b) none) }
    guarded (testQuiet notify k)

/-- Makes the state of a test when it is first needed; it has settled to not holding. -/
def openTest (k : SlotKey) : Live Unit := do
  if !Table.has (← get).delayed k then
    modify fun f => { f with delayed := Table.put f.delayed k ⟨none, some false, none⟩ }

/-- What a test has settled to. -/
def currentTest (k : SlotKey) (onTime : Bool) : Live Bool := do
  track (.settled k)
  let answer := ((Table.get? (← get).delayed k).bind (·.settled)).getD false
  recordTest k onTime (.answered answer)
  return answer

/-- What a test has settled to, after it has been told its result if that is a new one. -/
def followTest (k : SlotKey) (b : Bool) (quietMs : Int) : Live Bool := do
  let f ← get
  let some d := Table.get? f.delayed k | return false
  recordTest k (f.isOnTime k) (.computed b quietMs)
  if d.source ≠ some b then testChanged notify k d b quietMs
  currentTest k (f.isOnTime k)

/-- What a test has settled to at a field. -/
def callDelayed (key : String) (t : Test) (quietMs : Int) (root : Value) (field : List Key) :
    Live Bool := do
  openTest ⟨key, field⟩
  followTest notify ⟨key, field⟩ (← testHolds t root field) quietMs

/-! ## Calls -/

/-- Calls a compiled condition at a field; a value expression has no fields to be called at. -/
def call (f : LogicFunction) (root : Value) (field : List Key) : Live Bool :=
  match f with
  | .test t => testHolds t root field
  | .delayed key t ms => callDelayed notify key t ms root field
  | .inquiry key i => inquire notify key i root field
  | .value _ => throw (.breach .noPart)

/-- Compiles a condition and calls it at a field. -/
def holdsAt (quietMs : Option Int) (c : Condition) (root : Value) (field : List Key) : Live Bool := do
  call notify (← functionAt (← compile quietMs c)) root field

end

/-- The value that a compiled function computes in a context; a condition computes none, and is no
use of a context. -/
def computeValue (f : LogicFunction) (c : Context) : Live Value :=
  match f with
  | .value e => ofReporting (Expr.valueOrReport e c)
  | .test _ => throw .wrongKind
  | .delayed _ _ _ | .inquiry _ _ => throw (.breach .noPart)

end Live
end FormRules
