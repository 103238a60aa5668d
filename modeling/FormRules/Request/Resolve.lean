import FormRules.Context
import FormRules.Request.Basic
import FormRules.Request.Query
import FormRules.Value.Coercion

/-!
# Resolved requests

A request with its expressions evaluated in a context is a plain mapping: what is sent, and what
answers are remembered under.
-/

namespace FormRules

/-- A text is evaluated as an expression, another value stands for itself. -/
def Expr.evaluateText (scope : Expr.Scope) (v : Value) : Outcome Value :=
  match v with
  | .text s => Expr.evaluate s scope
  | v => .ok v

/-- Evaluates the texts among the values of a mapping. -/
def Expr.evaluateEntries (scope : Expr.Scope) (es : Entries) : Outcome Entries :=
  es.mapM fun e => do return (e.1, ← Expr.evaluateText scope e.2)

namespace Request

/-- The texts of parameters; nullish ones are left out. -/
def paramTexts (es : Entries) : List (String × String) :=
  es.filterMap fun e => if e.2.isNullish then none else some (e.1.text, e.2.toText)

/-- The body, with its fields evaluated in a scope if the description says so. -/
def resolveBody (r : Request) (scope : Expr.Scope) : Outcome Value :=
  match r.evaluateBody, r.body with
  | true, .map es => Value.map <$> Expr.evaluateEntries scope es
  | _, body => .ok body

/-- The fields of a resolved request; a body or headers that are not described are none. -/
def resolvedFields (r : Request) (params : Entries) (body : Value) : List (String × Value) :=
  [("url", .text (Query.append r.url (paramTexts params))),
      ("method", if r.method.isNull then .undefined else r.method)]
    ++ (if r.body.isUndefined then [] else [("body", body)])
    ++ (if r.headers.isEmpty then [] else [("headers", .map r.headers)])

/-- The request with its parameters, and possibly its body, evaluated in a scope. -/
def resolveIn (r : Request) (scope : Expr.Scope) : Outcome Value := do
  let params ← Expr.evaluateEntries scope r.queryParams
  let body ← r.resolveBody scope
  return .object (r.resolvedFields params body)

def resolve (r : Request) (c : Context) : Outcome Value := r.resolveIn c.scope

/-- A request given by concrete values. -/
def concrete (es : Entries) : Outcome Value := do
  let given := Value.field es "queryParams"
  let params ← if !given.given then pure [] else match given with
    | .map ps => pure ps
    | _ => throw (.breach .noPart)
  let url ← match Value.field? es "url" with
    | some u => pure u.plainText
    | none => throw (.breach .missingKey)
  let headers := Value.field es "headers"
  let headers ← if headers.given then (fun hs => [("headers", Value.map hs)]) <$> headers.toMapping
    else pure []
  return .object ([("url", .text (Query.append url (paramTexts params))),
      ("method", Value.fieldOrUndefined es "method")]
    ++ (match Value.field? es "body" with
      | some body => [("body", body)]
      | none => [])
    ++ headers)

end Request
end FormRules
