import FormRules.Form.Inquire

/-!
# Logic states and their watchers

The logic states of a field: whether some rule of a type holds there. A watcher keeps a state together
with what it was computed from. A change of that makes it stale; if somebody has subscribed, the state
is computed anew at once, and they are told if it is another one.
-/

namespace FormRules

namespace Live

def rules (root : Value) : Live Rules := do ofChecking ((← get).rulebook.rules root)

section
variable (notify : Source → Live Unit)

/-- Whether conditions hold at a field, the first that fails ending it. -/
def allHoldAt (field : List Key) : List Condition → Live Bool
  | [] => return true
  | c :: cs => do
    let b ← holdsAt notify none c (← get).value field
    if b then allHoldAt field cs else return false

/-- Whether one of some rules holds at a field, the first that does ending it. -/
def anyRuleHolds (field : List Key) : List LogicRule → Live Bool
  | [] => return false
  | r :: rs => do
    let guarded ← allHoldAt notify field r.guards
    let b ← if guarded then holdsAt notify r.debounceMs r.condition (← get).value field
      else pure false
    if b then return true else anyRuleHolds field rs

/-- Whether a rule of a type holds at a field. -/
def logicState (logic : String) (field : List Key) : Live Bool := do
  track .value
  let rules ← rules (← get).value
  let path := Path.format field
  let here := rules.logic.filter fun b => b.path = path && b.rule.type.name = logic
  anyRuleHolds notify field (here.map (·.rule))

/-! ## Watchers -/

def watcherAt? (n : Nat) : Live (Option Watcher) := do return (← get).watchers[n]?

def putWatcher (n : Nat) (w : Watcher) : Live Unit :=
  modify fun f => { f with watchers := f.watchers.set n w }

/-- Computes the state of a watcher. What was read counts even if the computation faults. -/
def refresh (n : Nat) : Live (Option Bool) := do
  let some w ← watcherAt? n | return none
  let (outcome, sources) ← watching (logicState notify w.logic w.field)
  modify fun f => { f with watchers := f.watchers.modify n fun w => { w with sources } }
  let b ← ofOutcome outcome
  modify fun f => { f with watchers := f.watchers.modify n fun w =>
    { w with
      state := some b
      stale := false
      version := if w.state = some b then w.version else w.version + 1 } }
  return some b

/-- A source of a watcher has changed. -/
def markStale (n : Nat) : Live Unit := do
  let some w ← watcherAt? n | return
  if w.stale then return
  putWatcher n { w with stale := true }
  if w.subscribers = 0 then return
  let state ← refresh notify n
  if state = w.state then return
  let told := ((← watcherAt? n).map (·.subscribers)).getD 0
  for _ in List.range told do
    tell (Path.format w.field ++ ":" ++ w.logic) (.bool (state.getD false))

end

/-- The positions of the watchers that depend on a source. -/
def observers (s : Source) : Live (List Nat) := do
  let ws := (← get).watchers
  return (List.range ws.length).filter fun n => (ws[n]?.map (·.sources.contains s)).getD false

/-- Tells the watchers of a source that it has changed. A watcher that is computed anew may change
further sources; while it is, it is stale and passed over, so `fuel` may be one more than the number
of watchers. -/
def notifyWithin : (fuel : Nat) → Source → Live Unit
  | 0, _ => return
  | fuel + 1, s => do
    for n in ← observers s do
      markStale (notifyWithin fuel) n

/-- Tells the watchers of a source that it has changed. -/
def notify (s : Source) : Live Unit := do notifyWithin ((← get).watchers.length + 1) s

/-- The state of a watcher, computed anew if it is stale. -/
def readWatcher (n : Nat) : Live (Option Bool) := do
  let some w ← watcherAt? n | return none
  if w.stale then refresh notify n else return w.state

/-- The watcher of a logic state of a field; it is made when it is first asked for. -/
def watcherOf (logic : String) (field : List Key) : Live Nat := do
  let f ← get
  match f.watchers.findIdx? fun w => w.field = field && w.logic = logic with
  | some n => return n
  | none =>
    set { f with watchers := f.watchers ++ [({ field, logic } : Watcher)] }
    return f.watchers.length

end Live
end FormRules
