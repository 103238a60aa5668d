import FormRules.Notice
import FormRules.Text.Casing
import FormRules.Value.Conversion
import FormRules.Value.Json

/-!
# Requests over HTTP

What a resolved request sends, and what comes of the reply: a successful status gives the payload, any
other, a timeout or a failed connection rejects the request.
-/

namespace FormRules.Http

/-- What is sent. -/
structure Message where
  method : String
  url : String
  /-- The body, if there is one. -/
  json : Option Value
  headers : Entries

/-- What comes back. -/
inductive Response
  | reply (status : Int) (text : String)
  | timeout
  | noConnection

mutual

/-- A value as it goes into JSON: fields that are `undefined` are dropped, items become `null`. -/
def jsonBody : Value → Value
  | .map es => .map (Table.ofEntries (jsonFields es))
  | .seq _ items => .list (jsonItems items)
  | v => v

/-- The fields of a mapping as they go into JSON. -/
def jsonFields : List (Key × Value) → List (Key × Value)
  | [] => []
  | (k, v) :: es =>
    if v.isUndefined then jsonFields es else (.name k.text, jsonBody v) :: jsonFields es

def jsonItems : List Value → List Value
  | [] => []
  | v :: vs => (if v.isUndefined then .null else jsonBody v) :: jsonItems vs

end

/-- The message of a request; the headers of the request come after the given ones. -/
def Message.ofRequest (request : Value) (headers : Entries) : Outcome Message :=
  match request with
  | .map es => do
    let method := Value.field es "method"
    let url ← match Value.field? es "url" with
      | some u => pure u.plainText
      | none => throw (.breach .missingKey)
    let body := Value.fieldOrUndefined es "body"
    let own ← (Value.field es "headers").toMapping
    return {
      method := String.ofList (Text.upper (if method.given then method.plainText else "GET").toList)
      url
      json := if body.isNullish then none else some (jsonBody body)
      headers := Table.merge headers own }
  | _ => throw (.breach .noPart)

/-- The payload of a text: nothing, JSON if it is, else the text. -/
def payload (text : String) : Value :=
  if text = "" then .null
  else
    let cs := text.toList
    let body := match cs with
      | '\ufeff' :: rest => String.ofList rest
      | _ => text
    (Json.read? body).getD (.text text)

def Message.outcome (m : Message) (r : Response) : Outcome Value :=
  let key := m.method ++ " " ++ m.url
  match r with
  | .reply status text =>
    if 200 ≤ status ∧ status ≤ 299 then .ok (payload text)
    else .error (.unresolved key none (.int status))
  | .timeout => .error (.unresolved key none (.text "timeout"))
  | .noConnection => .error (.unresolved key none .null)

/-- What comes of a response, with a report if there was none. -/
def Message.perform (m : Message) (r : Response) : Reporting (Outcome Value) := do
  match r with
  | .reply _ _ => pure ()
  | .timeout | .noConnection => Journal.report .transportFailed
  return m.outcome r

end FormRules.Http
