import FormRules.Functions

/-!
# A service with fixed answers

A service answers requests by their URL, after a delay: those to one URL in turn, and the last answer
for ever. It keeps the requests that it was sent.
-/

namespace FormRules

/-- An answer of a service. -/
inductive Answer
  | response (v : Value)
  /-- The request is rejected, with some detail. -/
  | rejection (detail : Value)
  | raises (message : String)

/-- What comes of a request to a URL that is answered so. -/
def Answer.outcome (url : String) : Answer → Outcome Value
  | .response v => .ok v
  | .rejection detail => .error (.unresolved url none detail)
  | .raises message => .error (.raised message)

/-- An answer and the time that it takes. -/
structure Route where
  delay : Int
  answer : Answer

/-- A service. -/
structure Service where
  /-- The answers for a URL in turn; `*` stands for any other URL. -/
  routes : List (String × List Route)
  /-- How often each URL was asked. -/
  asked : List (String × Nat) := []
  /-- The requests sent, the first one first. -/
  requests : List Value := []

namespace Service

def urlOf : Value → String
  | .map es => (Value.field es "url").plainText
  | _ => ""

/-- The route of the request after `n` earlier ones to its URL. -/
def route? (s : Service) (url : String) (n : Nat) : Option Route :=
  match s.routes.lookup url <|> s.routes.lookup "*" with
  | some rs => rs[n]? <|> rs.getLast?
  | none => none

def send (s : Service) (request : Value) : Reply Value × Service :=
  let url := urlOf request
  let n := (s.asked.lookup url).getD 0
  let route := (s.route? url n).getD ⟨0, .rejection (.text "no route")⟩
  (⟨route.delay, route.answer.outcome url⟩,
    { s with asked := Table.put s.asked url (n + 1), requests := s.requests ++ [request] })

def routeOf (v : Value) : Route :=
  let es := match v with
    | .map es => es
    | _ => []
  { delay := match Value.field es "delay" with
      | .num n => n.toInt?.getD 0
      | _ => 0
    answer := match Value.field? es "fail", Value.field? es "raise" with
      | some d, _ => .rejection d
      | none, some t => .raises t.plainText
      | none, none => .response (Value.field es "response") }

/-- The service that a mapping from URLs to routes describes; any other value describes none. -/
def ofDescription : Value → Option Service
  | .map es => some
    { routes := es.map fun e => (e.1.text, match e.2 with
        | .seq _ rs => rs.map routeOf
        | v => [routeOf v]) }
  | _ => none

end Service
end FormRules
