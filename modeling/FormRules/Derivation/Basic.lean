import FormRules.Condition.Dependence
import FormRules.Condition.Description
import FormRules.Expr.Reference

/-!
# Derivations

A derivation computes the value of a target: from an expression, a registered function or a fixed
value at once, or from a service or an asynchronous function later. A condition may gate it.
-/

namespace FormRules

/-- Where the value of a derivation comes from. -/
inductive DerivationSource
  | expression (code : Value)
  | function (name : Value)
  | fixed (v : Value)
  | http (request : Request) (responseExpression : Value)
  | asyncFunction (name : Value)

/-- A derivation. -/
structure Derivation where
  target : String
  source : DerivationSource
  condition : Option Condition
  dependsOn : List Value
  debounceMs : Option Int

namespace Derivation

/-- Whether the value comes later. -/
def isAsync (d : Derivation) : Bool :=
  match d.source with
  | .http _ _ | .asyncFunction _ => true
  | _ => false

/-- The sources that the fields of a mapping name. -/
def sources (es : Entries) (request : Option Request) : List DerivationSource :=
  let code := Value.field es "expression"
  let function := Value.field es "functionName"
  let fixed := Value.fieldOrUndefined es "value"
  let later := Value.field es "asyncFunctionName"
  (if code.isNull then [] else [.expression code])
    ++ (if function.isNull then [] else [.function function])
    ++ (if fixed.isUndefined then [] else [.fixed fixed])
    ++ (request.map fun r => .http r (Value.field es "responseExpression")).toList
    ++ (if later.isNull then [] else [.asyncFunction later])

/-- The one source of a derivation; a service needs an expression that reads its response. -/
def theSource (target : String) : List DerivationSource → Outcome DerivationSource
  | [.http r e] => if e.given then .ok (.http r e) else .error (.shape (.derivationResponse target))
  | [s] => .ok s
  | _ => .error (.shape (.derivationSource target))

def parse (v : Value) : Outcome Derivation := do
  match v with
  | .map es =>
    let target := Value.field es "target"
    if !target.given then throw (.shape .derivationTarget)
    let debounceMs ← Condition.optionalInt es "debounceMs"
    let condition ← match (Value.field es "condition").nonNull? with
      | none => pure none
      | some c => some <$> Condition.parse c
    let dependsOn ← (Value.field es "dependsOn").toMembers
    let request ← match (Value.field es "http").nonNull? with
      | none => pure none
      | some r => some <$> Request.parse r
    let source ← theSource target.plainText (sources es request)
    return { target := target.plainText, source, condition, dependsOn, debounceMs }
  | _ => throw (.shape .derivationTarget)

/-- The paths that an expression reads; nothing given reads nothing. -/
def pathsOf (code : Value) : Outcome (List String) :=
  if code.given then do return Expr.Reference.paths (← code.sourceText) else .ok []

/-- A declared dependence, which has to be a text. -/
def declared : Value → Outcome String
  | .text s => .ok s
  | _ => .error .wrongKind

def DerivationSource.dependencies : DerivationSource → Outcome (List String)
  | .expression code => pathsOf code
  | .function _ | .asyncFunction _ => .ok [allFields]
  | .fixed _ => .ok []
  | .http r _ =>
    let paths := (r.expressions.flatMap Expr.Reference.paths).eraseDups
    .ok (if paths.isEmpty then [allFields] else paths)

/-- What a derivation reads: what it declares, or else what its source reads, and what its condition
reads. -/
def dependencies (d : Derivation) : Outcome (List String) := do
  let own ← if d.dependsOn.isEmpty then DerivationSource.dependencies d.source
    else d.dependsOn.mapM declared
  let gate ← match d.condition with
    | some c => c.dependencies
    | none => pure []
  return (own ++ gate).eraseDups

/-- Whether two sources have the same parts. -/
def DerivationSource.same : DerivationSource → DerivationSource → Bool
  | .expression a, .expression b | .function a, .function b | .fixed a, .fixed b
  | .asyncFunction a, .asyncFunction b => a.sameContent b
  | .http r e, .http s f => r.same s && e.sameContent f
  | _, _ => false

/-- Whether two derivations have the same parts. -/
def same (a b : Derivation) : Bool :=
  a.target = b.target && DerivationSource.same a.source b.source
    && (match a.condition, b.condition with
      | none, none => true
      | some c, some d => c.same d
      | _, _ => false)
    && (Value.list a.dependsOn).sameContent (.list b.dependsOn) && a.debounceMs = b.debounceMs

end Derivation
end FormRules
