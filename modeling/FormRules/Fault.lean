import FormRules.Pattern.Reader
import FormRules.Store.Order
import FormRules.Value.Path

/-!
# Faults

Everything that can go wrong, by cause. `Fault.message` gives the wording.
-/

namespace FormRules

/-- An operation met a value that it has no answer for. -/
inductive Breach
  /-- A value of the wrong kind. -/
  | wrongKind
  /-- A value of the right kind that the operation cannot take. -/
  | badValue
  /-- A mapping without a required key. -/
  | missingKey
  /-- A position outside of a list. -/
  | outOfRange
  /-- A number too large for its use. -/
  | tooLarge
  /-- A value without the part that is asked for. -/
  | noPart
  /-- Waiting took too long. -/
  | overdue
  deriving DecidableEq

/-- Why a text is no expression. -/
inductive SyntaxCause
  | notText (kind : String)
  | empty
  | malformed
  | unbuildable
  deriving DecidableEq

/-- Why an expression has no value. -/
inductive RuntimeCause
  | blockedProperty (name : String)
  | callOnNullish (method receiver : String)
  | notAMethodCall
  | methodNotAllowed (name : String)
  | methodFailed (name : String)
  | fixedDigits
  | redeclared (name : String)
  | failed
  deriving DecidableEq

/-- The kinds of registered functions. -/
inductive FunctionKind
  | validator
  | asyncValidator
  | remoteValidator
  | asyncFunction
  | derivation
  | asyncDerivation
  deriving DecidableEq

/-- Why a description describes nothing. -/
inductive ShapeCause
  | conditionKind (kind : String)
  | conditionType (written : String)
  | outOfBandInside (child composite : String)
  | operator (text : String)
  | requires (type field : String) (alternative : Option String)
  | notInteger (field written : String)
  | notAList (type : String)
  | requestKind (kind : String)
  | requestUrl
  | validatorKind (kind : String)
  | validatorType (written : String)
  | customSource
  | validatorFunction (type : String)
  | logicKind (kind : String)
  | logicType (written : String)
  | applicationKind (kind : String)
  | applicationType (written : String)
  | applicationSchema
  | applicationCondition
  | applicationPredicate
  | schemaName
  | derivationTarget
  | derivationSource (target : String)
  | derivationResponse (target : String)
  deriving DecidableEq

/-- The names of the comparison operators, in alphabetical order. -/
def comparisonNames : List String :=
  ["contains", "endsWith", "equals", "greater", "greaterOrEqual", "less", "lessOrEqual", "matches",
    "notEquals", "startsWith"]

/-- The names of the logic types, in alphabetical order. -/
def logicTypeNames : List String := ["disabled", "hidden", "readonly", "required"]

/-- The updates of a form that take a mapping. -/
inductive MappingUpdate
  | patch
  | replace
  deriving DecidableEq

/-- What went wrong. -/
inductive Fault
  /-- A text that is no expression; the position is the furthest at which no token fitted. -/
  | noExpression (cause : SyntaxCause) (source : String) (position : Nat)
  /-- An expression without a value. -/
  | noValue (cause : RuntimeCause)
  /-- A name under which no function is registered. -/
  | unknownFunction (kind : FunctionKind) (name : String) (available : List String)
  /-- A description that describes nothing. -/
  | shape (cause : ShapeCause)
  /-- A name under which no schema is registered. -/
  | unknownSchema (name : String) (available : List String)
  /-- Derivations that depend on each other in a loop. -/
  | cycle (path : List String)
  /-- A request or lookup that was rejected. -/
  | unresolved (key : String) (reason : Option String) (detail : Value)
  /-- A failure raised by a registered function or for want of an event loop. -/
  | raised (message : String)
  /-- An update that takes a mapping was given something else. -/
  | expectsMapping (update : MappingUpdate)
  | breach (b : Breach)

/-- A result or a fault. -/
abbrev Outcome := Except Fault

namespace Fault

def wrongKind : Fault := .breach .wrongKind

/-- A value that the operation cannot take. -/
def badValue : Fault := .breach .badValue

/-- Texts separated by a comma and a blank. -/
def commaJoined (names : List String) : String := ", ".intercalate names

/-- Texts in alphabetical order. -/
def sorted (names : List String) : List String := Order.sort (fun a b => !(b < a)) names

/-- Names in alphabetical order, or a mark that there are none. -/
def listing (names : List String) : String :=
  if names.isEmpty then "<none>" else commaJoined (sorted names)

def SyntaxCause.message : SyntaxCause → String
  | .notText kind => "Expression must be a string, got " ++ kind
  | .empty => "Empty expression"
  | .malformed => "Invalid expression syntax"
  | .unbuildable => "Could not build expression tree"

/-- The wording of an evaluation fault. -/
def RuntimeCause.message : RuntimeCause → String
  | .blockedProperty name => "Property \"" ++ name ++ "\" is not accessible for security reasons"
  | .callOnNullish method receiver => "Cannot call method '" ++ method ++ "' on " ++ receiver
  | .notAMethodCall => "Only method calls are allowed, not arbitrary function calls"
  | .methodNotAllowed name => "Method \"" ++ name ++ "\" is not allowed for security reasons"
  | .methodFailed name => "Method '" ++ name ++ "' failed"
  | .fixedDigits => "toFixed() digits argument must be between 0 and 100"
  | .redeclared name => "Identifier '" ++ name ++ "' has already been declared"
  | .failed => "Evaluation failed"

def FunctionKind.text : FunctionKind → String
  | .validator => "validator"
  | .asyncValidator => "async validator"
  | .remoteValidator => "remote validator"
  | .asyncFunction => "async function"
  | .derivation => "derivation function"
  | .asyncDerivation => "async derivation function"

def ShapeCause.message : ShapeCause → String
  | .conditionKind kind => "Condition must be a mapping or bool, got " ++ kind
  | .conditionType written => "Unknown condition type: " ++ written
  | .outOfBandInside child composite =>
    "'" ++ child ++ "' conditions cannot be nested inside '" ++ composite ++ "': they resolve "
      ++ "asynchronously and cannot take part in a synchronous boolean expression"
  | .operator text =>
    "Unknown comparison operator '" ++ text ++ "'. Expected one of: " ++ commaJoined comparisonNames
  | .requires type field alternative =>
    "'" ++ type ++ "' condition requires '" ++ field ++ "'"
      ++ (match alternative with
        | some other => " (or '" ++ other ++ "')"
        | none => "")
  | .notInteger field written => "'" ++ field ++ "' must be an integer, got " ++ written
  | .notAList type => "'" ++ type ++ "' requires a list of conditions"
  | .requestKind kind => "request must be a mapping, got " ++ kind
  | .requestUrl => "request requires 'url'"
  | .validatorKind kind => "Validator must be a mapping or name, got " ++ kind
  | .validatorType written => "Unknown validator type: " ++ written
  | .customSource => "'custom' validator requires 'functionName' or 'expression'"
  | .validatorFunction type => "'" ++ type ++ "' validator requires 'functionName'"
  | .logicKind kind => "Logic must be a mapping, got " ++ kind
  | .logicType written =>
    "Unknown logic type " ++ written ++ ". Expected one of: " ++ commaJoined logicTypeNames
  | .applicationKind kind => "Schema application must be a mapping, got " ++ kind
  | .applicationType written => "Unknown schema application type: " ++ written
  | .applicationSchema => "Schema application requires 'schema' (a name or a definition)"
  | .applicationCondition => "'applyWhen' requires a condition"
  | .applicationPredicate => "'applyWhenValue' requires a typePredicate"
  | .schemaName => "Schema definition requires a 'name'"
  | .derivationTarget => "Derivation requires a 'target'"
  | .derivationSource target =>
    "Derivation for '" ++ target ++ "' needs exactly one of "
      ++ "'expression', 'functionName', 'value', 'http', 'asyncFunctionName'"
  | .derivationResponse target =>
    "HTTP derivation for '" ++ target ++ "' requires 'responseExpression'"

/-- The wording of a fault; a breach has none of its own. -/
def message : Fault → String
  | .noExpression cause _ _ => SyntaxCause.message cause
  | .noValue cause => RuntimeCause.message cause
  | .unknownFunction kind name available =>
    "Unknown " ++ FunctionKind.text kind ++ " '" ++ name ++ "'. Registered: " ++ listing available
  | .shape cause => ShapeCause.message cause
  | .unknownSchema name available =>
    "Schema not found: '" ++ name ++ "'. Available schemas: " ++ listing available
  | .cycle path => "Derivation cycle detected: " ++ " -> ".intercalate path
  | .unresolved key reason _ =>
    "Resolution failed for " ++ key
      ++ (match reason with
        | some r => ": " ++ r
        | none => "")
  | .raised message => message
  | .expectsMapping .patch => "patch expects a mapping delta"
  | .expectsMapping .replace => "replace expects a mapping"
  | .breach _ => ""

/-- The text that a handler of the fault is given: for a text that is no expression, also where. -/
def text : Fault → String
  | .noExpression cause source position =>
    SyntaxCause.message cause ++ " (at position " ++ natText position ++ " in "
      ++ Text.quote source ++ ")"
  | f => f.message

def ofPath : PathFault → Fault
  | .notANumeral => .breach .badValue
  | .textIndex => .breach .wrongKind
  | .outOfRange => .breach .outOfRange

end Fault

/-- The keys of a path, or the breach. -/
def Path.keys (path : String) : Outcome (List Key) := (Path.parse path).mapError Fault.ofPath

end FormRules
