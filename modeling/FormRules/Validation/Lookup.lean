import FormRules.Request.Resolve
import FormRules.Validation.Check

/-!
# Checks that answer later

A lookup starts with a call and finishes with its outcome. That the call succeeded does not mean that
the field is valid; that it failed is reported and ignored unless the check says otherwise.
-/

namespace FormRules

/-- A lookup that has started: finished already, or waiting for a reply. -/
inductive Started
  | finished (error : Option ValidationError)
  | waiting (reply : Reply Value)

section
variable {m : Type → Type} [Monad m] (h : Host m) (c : Context)

namespace CompiledValidator

/-- What an answer stands for; a fault of the function that judges it is reported. -/
def conclude (v : CompiledValidator) (verdict : Outcome Verdict) : m (Option ValidationError) :=
  match verdict with
  | .ok w => return v.config.interpret c w
  | .error _ => do
    h.lift (Journal.report .validatorFailed)
    return none

def failed (v : CompiledValidator) (o : LookupOutcome) (f : Fault) : m (Option ValidationError) :=
  match o.onError with
  | some judge => v.conclude h c (judge f.text c)
  | none => do
    h.lift (Journal.report (.asyncIgnored c.path f.text))
    return none

def finish (v : CompiledValidator) (outcome : Outcome Value) : m (Option ValidationError) :=
  match v.source with
  | .async ⟨_, _, o⟩ | .remote ⟨_, o⟩ =>
    match outcome with
    | .ok w => v.conclude h c (o.onSuccess w c)
    | .error f => v.failed h c o f
  | _ => return none

/-- The request that a check asks a service, made concrete. -/
def concreteRequest : Value → Outcome Value
  | .map es => Request.concrete es
  | _ => throw (.breach .noPart)

/-- Asks a service, if there is one. -/
def ask (send : Option (Value → m (Reply Value))) (request : Value) : ExceptT Fault m (Reply Value) := do
  match send with
  | none =>
    let url := match request with
      | .map es => (Value.field es "url").plainText
      | _ => ""
    throw (.unresolved url none (.text "no transport configured"))
  | some send =>
    let resolved ← ExceptT.mk (pure (concreteRequest request))
    (send resolved : m _)

/-- The start of a lookup whose guards hold. -/
def call (v : CompiledValidator) (send : Option (Value → m (Reply Value))) : m Started := do
  match v.source with
  | .async f =>
    match f.arguments c v.config.params with
    | .ok arguments => return .waiting (f.run arguments)
    | .error e => return .finished (← v.failed h c f.outcome e)
  | .remote f =>
    match f.request c v.config.params with
    | .error e => return .finished (← v.failed h c f.outcome e)
    | .ok .null => return .finished none
    | .ok request =>
      match ← (ask send request).run with
      | .ok reply => return .waiting reply
      | .error e => return .finished (← v.failed h c f.outcome e)
  | _ => return .finished none

/-- The start of a check that may answer later. -/
def start (v : CompiledValidator) (send : Option (Value → m (Reply Value))) : m Started := do
  if !v.config.type.isAsync then return .finished (← v.validate h c)
  if !(← h.guardsHold c v.config.guards) then return .finished none
  v.call h c send

end CompiledValidator
end
end FormRules
