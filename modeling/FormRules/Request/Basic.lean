import FormRules.Value.Conversion
import FormRules.Value.Equality

/-!
# Request descriptions

A request names a URL and, optionally, a method, query parameters, a body and headers. Parameters that
are texts are expressions; the fields of the body are, if the description says so.
-/

namespace FormRules

/-- A described request. -/
structure Request where
  url : String
  /-- The method, `null` if none is given. -/
  method : Value
  queryParams : Entries
  /-- The body, `undefined` if there is none. -/
  body : Value
  headers : Entries
  /-- Whether texts among the fields of the body are expressions. -/
  evaluateBody : Bool

namespace Request

def parse (v : Value) : Outcome Request :=
  match v with
  | .map es => do
    let url := Value.field es "url"
    if !url.given then throw (.shape .requestUrl)
    return {
      url := url.plainText
      method := Value.field es "method"
      queryParams := ← (Value.field es "queryParams").toMapping
      body := Value.fieldOrUndefined es "body"
      headers := ← (Value.field es "headers").toMapping
      evaluateBody := (Value.field es "evaluateBodyExpressions").given }
  | v => throw (.shape (.requestKind v.kindName))

/-- The description of a request, without what is unset. -/
def description (r : Request) : Value :=
  .object ([("url", .text r.url)]
    ++ (if r.method.isNull then [] else [("method", r.method)])
    ++ (if r.queryParams.isEmpty then [] else [("queryParams", .map r.queryParams)])
    ++ (if r.body.isUndefined then [] else [("body", r.body)])
    ++ (if r.headers.isEmpty then [] else [("headers", .map r.headers)])
    ++ (if r.evaluateBody then [("evaluateBodyExpressions", .bool true)] else []))

/-- Whether two requests have the same parts, mappings in any order. -/
def same (a b : Request) : Bool :=
  a.url = b.url && a.method.sameContent b.method
    && (Value.map a.queryParams).sameContent (.map b.queryParams)
    && a.body.sameContent b.body && (Value.map a.headers).sameContent (.map b.headers)
    && a.evaluateBody = b.evaluateBody

def expressions (r : Request) : List String :=
  Value.texts r.queryParams ++ (match r.evaluateBody, r.body with
    | true, .map es => Value.texts es
    | _, _ => [])

end Request
end FormRules
