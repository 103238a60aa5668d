import FormRules.Functions
import FormRules.Inquiry.Slot
import FormRules.Request.Resolve
import FormRules.Settings
import FormRules.Validation.Builtin

/-!
# Questions and answers of inquiries

What an inquiry asks in a context, and what it makes of a response.
-/

namespace FormRules

namespace Inquiry

/-- What is asked in a context: the resolved request, or the function and its evaluated parameters. -/
def snapshot (i : Inquiry) (c : Context) : Outcome Value :=
  match i.source with
  | .remote r _ => r.resolve c
  | .async f ps => do
    let params ← Expr.evaluateEntries c.scope ps
    return .object [("functionName", .text f), ("params", .map params)]

def question (i : Inquiry) (c : Context) : Outcome Dispatch := do
  let snapshot ← i.snapshot c
  return { key := snapshot.canonical, snapshot, context := c }

/-- The answer that a response stands for: that of the response expression if there is one, else
whether the response is truthy; that of a function directly. -/
def interpret (i : Inquiry) (c : Context) (response : Value) : Checking Bool :=
  match i.source with
  | .remote _ e =>
    if e.given then do
      let v ← ExceptT.mk (pure (Expr.evaluateValue e (c.scopeWith [("response", response)])))
      ExceptT.lift (v.asBoolean e.plainText)
    else return response.truthy
  | .async f _ => ExceptT.lift (response.asBoolean ("async:" ++ f))

/-- The answer that a response stands for; a fault in its place stands for itself. -/
def outcome (i : Inquiry) (c : Context) : Outcome Value → Reporting (Outcome Bool)
  | .ok v => (i.interpret c v).run
  | .error e => return .error e

/-- How long the question has to stay the same before it is asked. -/
def quietMs (i : Inquiry) (s : Settings) : Int := i.debounceMs.getD s.debounceMs

/-- How long an answer is remembered. -/
def memoryMs (i : Inquiry) (s : Settings) : Int := i.cacheMs.getD s.cacheMs

/-- The reply of a registered function to a question. -/
def askFunction (fs : Functions) (name : String) (d : Dispatch) : Outcome (Reply Value) := do
  let f ← Functions.find fs.asyncFunctions .asyncFunction (.text name)
  let params := match d.snapshot with
    | .map es => Value.field es "params"
    | _ => .map []
  return f params d.context

end Inquiry
end FormRules
