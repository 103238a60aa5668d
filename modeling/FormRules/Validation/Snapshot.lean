import FormRules.Request.Service
import FormRules.Validation.Lookup

/-!
# Validating a snapshot

Validators run over a context one after another; a lookup is made and awaited before the next.
-/

namespace FormRules

/-- A computation that may report and ask a service. -/
abbrev Consulting := StateT (Option Service) Reporting

/-- The host of a snapshot, for computations that may ask a service. -/
def Host.consulting (fs : Functions) : Host Consulting where
  lift x := StateT.lift x
  functions := fs
  inquire i c := StateT.lift ((Host.snapshot fs).inquire i c)
  valueOf e c := StateT.lift (Expr.valueOrReport e c)

def Consulting.send (request : Value) : Consulting (Reply Value) := do
  match ← get with
  | some service =>
    let (reply, service) := service.send request
    set (some service)
    return reply
  | none => return ⟨0, .error (.unresolved (Service.urlOf request) none .null)⟩

/-- The error that a validator finds in the end. -/
def CompiledValidator.resolve (fs : Functions) (c : Context) (v : CompiledValidator) :
    Consulting (Option ValidationError) := do
  let send := if (← get).isSome then some Consulting.send else none
  match ← v.start (Host.consulting fs) c send with
  | .finished e => return e
  | .waiting reply => v.finish (Host.consulting fs) c reply.outcome

/-- The first position of an equal key. -/
def firstSame (keys : List String) : List Nat := keys.map fun k => keys.idxOf k

end FormRules
