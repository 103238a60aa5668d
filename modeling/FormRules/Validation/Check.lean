import FormRules.Validation.Builtin

/-!
# Checking a field

A validator compiled against the registered functions, and the check that it makes in a context. A
check never faults: a fault inside of it is reported and counts as no error.
-/

namespace FormRules

/-- What validators ask of the form that they run in. -/
structure Host (m : Type → Type) where
  lift : {α : Type} → Reporting α → m α
  functions : Functions
  /-- The answer to an inquiry that guards a validator. -/
  inquire : Inquiry → Context → m Bool
  /-- The value of an expression in a context, `undefined` if it has none. -/
  valueOf : Value → Context → m Value

/-- The value of an expression in a context; a fault is reported and the value `undefined`. -/
def Expr.valueOrReport (expression : Value) (c : Context) : Reporting Value :=
  match Expr.evaluateValue expression c.scope with
  | .ok v => return v
  | .error _ => do
    Journal.report .valueFailed
    return .undefined

/-- The form as a snapshot: inquiries are not made and count as pending. -/
def Host.snapshot (fs : Functions) : Host Reporting where
  lift x := x
  functions := fs
  inquire i c := do
    Journal.report (.guardUnresolved i.source.kind c.path)
    return i.pending
  valueOf := Expr.valueOrReport

/-- What makes the check of a validator. -/
inductive CheckSource
  | builtin (b : Builtin)
  | expression
  | function (f : CheckFunction)
  | async (f : AsyncCheck)
  | remote (f : RemoteCheck)

/-- A validator with the function that it refers to. -/
structure CompiledValidator where
  config : Validator
  source : CheckSource

def Validator.compile (fs : Functions) (v : Validator) : Outcome CompiledValidator :=
  match v.type with
  | .builtin b => return ⟨v, .builtin b⟩
  | .custom => do
    if v.functionName.given then
      return ⟨v, .function (← Functions.find fs.checks .validator v.functionName)⟩
    else return ⟨v, .expression⟩
  | .customAsync => do
    return ⟨v, .async (← Functions.find fs.asyncChecks .asyncValidator v.functionName)⟩
  | .customRemote => do
    return ⟨v, .remote (← Functions.find fs.remoteChecks .remoteValidator v.functionName)⟩

/-- The error of a validator in a context; a kind that is given comes before its own. -/
def Validator.error (v : Validator) (c : Context) (params : Entries) (kind : Value) : ValidationError where
  kind := if kind.given then kind else v.errorKind
  path := c.path
  params := params
  message := v.message

/-- The error that a function's answer stands for. `null` and `true` pass, `false` fails, a text names
the kind of error, and a mapping gives a kind, a message and parameters. -/
def Validator.interpret (v : Validator) (c : Context) : Verdict → Option ValidationError
  | .error e => some (if e.path = "" then { e with path := c.path } else e)
  | .value .null | .value (.bool true) => none
  | .value (.bool false) => some (v.error c [] .null)
  | .value (.text s) => some (v.error c [] (.text s))
  | .value (.map es) =>
    let params := es.filter fun e => e.1 ≠ .name "kind" && e.1 ≠ .name "message"
    let error := v.error c params (Value.field es "kind")
    let message := Value.field es "message"
    some (if message.isNull then error else { error with message })
  | .value w => some (v.error c [(.name "result", w)] .null)

section
variable {m : Type → Type} [Monad m] (h : Host m) (c : Context)

/-- Whether conditions hold, the first that fails ending it. -/
def Host.guardsHold : List Condition → m Bool
  | [] => return true
  | g :: gs => do
    let b ← match g with
      | .test t => h.lift (t.holds h.functions.customFunctions c)
      | .inquiry i => h.inquire i c
    if b then guardsHold gs else return false

/-- The parameters that a validator adds to its errors. -/
def Host.errorParams : Entries → m Entries
  | [] => return []
  | (k, e) :: es => do
    let v ← h.valueOf e c
    let rest ← errorParams es
    return if v.isUndefined then rest else (k, v) :: rest

namespace CompiledValidator

/-- The check that a validator makes at once. -/
def check (v : CompiledValidator) : ExceptT Fault m (Option ValidationError) := do
  match v.source with
  | .builtin b =>
    let bound ← if v.config.expression.isNull then pure v.config.value
      else (h.valueOf v.config.expression c : m Value)
    let params ← ExceptT.mk (h.lift (b.check c.current bound).run)
    return params.map fun ps => v.config.error c ps .null
  | .expression =>
    let passed ← ExceptT.mk (pure (Expr.evaluateValue v.config.expression c.scope))
    if passed.truthy then return none
    let params ← (h.errorParams c v.config.errorParams : m Entries)
    return some (v.config.error c params
      (if v.config.kind.given then v.config.kind else .text "custom"))
  | .function f =>
    let verdict ← ExceptT.mk (pure (f.check c v.config.params))
    match v.config.interpret c verdict with
    | none => return none
    | some e =>
      let params ← (h.errorParams c v.config.errorParams : m Entries)
      return some { e with params := Table.merge params e.params }
  | .async _ | .remote _ => return none

/-- The error that a validator finds at once, if its guards hold; a lookup finds none. -/
def validate (v : CompiledValidator) : m (Option ValidationError) := do
  if v.config.type.isAsync then return none
  if !(← h.guardsHold c v.config.guards) then return none
  match ← (check h c v).run with
  | .ok e => return e
  | .error _ =>
    h.lift (Journal.report .validatorFailed)
    return none

end CompiledValidator
end
end FormRules
