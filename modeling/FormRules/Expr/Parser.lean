import FormRules.Expr.Token
import FormRules.Fault

/-!
# Parsing expressions

Recursive descent over the precedence levels, lowest first: conditional, `??`, `||`, `&&`, equality,
order, sums, products, prefix operators, chains, primaries. Alternatives are tried in order and a
failed one is forgotten, except for how far it came: the furthest place at which a token did not fit
is where a syntax fault is reported.
-/

namespace FormRules.Expr

/-- What a parser has found, with the rest of the text, and the fewest characters that were left
where a token did not fit. -/
structure Reply (α : Type) where
  outcome : Option (α × List Char)
  reach : Option Nat

/-- A parser takes something off the front of a text. -/
structure Parser (α : Type) where
  run : List Char → Reply α

/-- The further of two places. -/
def further : Option Nat → Option Nat → Option Nat
  | none, b => b
  | a, none => a
  | some a, some b => some (min a b)

namespace Parser
variable {α β : Type}

/-- Finds a value without taking anything. -/
def found (a : α) : Parser α := ⟨fun cs => ⟨some (a, cs), none⟩⟩

/-- One parser after another. -/
def andThen (p : Parser α) (f : α → Parser β) : Parser β where
  run cs :=
    match p.run cs with
    | ⟨none, reach⟩ => ⟨none, reach⟩
    | ⟨some (a, rest), reach⟩ =>
      let r := (f a).run rest
      ⟨r.outcome, further reach r.reach⟩

instance : Monad Parser where
  pure := found
  bind := andThen

/-- Never succeeds. -/
def fail : Parser α := ⟨fun _ => ⟨none, none⟩⟩

/-- The second parser where the first fails. -/
def orElse (p : Parser α) (q : Parser α) : Parser α where
  run cs :=
    match p.run cs with
    | ⟨some r, reach⟩ => ⟨some r, reach⟩
    | ⟨none, reach⟩ =>
      let r := q.run cs
      ⟨r.outcome, further reach r.reach⟩

/-- The first of several parsers that succeeds. -/
def firstOf (ps : List (Parser α)) : Parser α := ps.foldr orElse fail

/-- Succeeds with `none` where the parser fails. -/
def optional (p : Parser α) : Parser (Option α) :=
  orElse (andThen p fun a => found (some a)) (found none)

/-- As often as the parser succeeds, at most `fuel` times. -/
def manyFrom (p : Parser α) : Nat → List Char → Reply (List α)
  | 0, cs => ⟨some ([], cs), none⟩
  | fuel + 1, cs =>
    match p.run cs with
    | ⟨none, reach⟩ => ⟨some ([], cs), reach⟩
    | ⟨some (a, rest), reach⟩ =>
      let r := manyFrom p fuel rest
      ⟨r.outcome.map fun o => (a :: o.1, o.2), further reach r.reach⟩

/-- As often as the parser succeeds; each time it takes a character. -/
def many (p : Parser α) : Parser (List α) := ⟨fun cs => manyFrom p cs.length cs⟩

/-- Blanks that may stand before a token. -/
def isSpace (c : Char) : Bool := c == ' ' || c == '\t' || c == '\n' || c == '\r'

/-- A token after optional blanks. -/
def token (t : Token α) : Parser α where
  run cs :=
    let cs := cs.dropWhile isSpace
    match t cs with
    | some r => ⟨some r, none⟩
    | none => ⟨none, some cs.length⟩

/-- Punctuation after optional blanks. -/
def mark (p : String) : Parser Unit := token (Token.exactly p)

/-- A step along a chain, before it is attached to its receiver. -/
inductive Link
  | member (property : String) (optional : Bool)
  | index (index : Node) (optional : Bool)
  | call (args : List Node) (optional : Bool)

def Link.isOptional : Link → Bool
  | .member _ o | .index _ o | .call _ o => o

def Link.attach (receiver : Node) : Link → Node
  | .member p o => .member receiver p o
  | .index i o => .index receiver i o
  | .call as o => .call receiver as o

/-- Attaches links to a receiver; a chain with an optional link is marked as one. -/
def attachAll (receiver : Node) (links : List Link) : Node :=
  let node := links.foldl Link.attach receiver
  if links.any Link.isOptional then .chain node else node

/-- Left-associative operators between operands of the next level. -/
def leftAssoc {ω : Type} (operand : Parser Node) (op : Token ω) (make : ω → Node → Node → Node) :
    Parser Node := do
  let first ← operand
  let steps ← many do
    let o ← token op
    let right ← operand
    return (o, right)
  return steps.foldl (fun left s => make s.1 left s.2) first

section Levels
variable (expr : Parser Node)

/-- One or more expressions separated by commas. -/
def listed : Parser (List Node) := do
  let first ← expr
  let more ← many do
    mark ","
    expr
  return first :: more

/-- Elements in brackets; a trailing comma is allowed. -/
def arrayLiteral : Parser Node := do
  mark "["
  let elements ← optional do
    let es ← listed expr
    let _ ← optional (mark ",")
    return es
  mark "]"
  return .array (elements.getD [])

/-- An expression in parentheses. -/
def group : Parser Node := do
  mark "("
  let e ← expr
  mark ")"
  return e

def declaration : Parser (DeclarationKind × String × Node) := do
  let kind ← token Token.declarationKind
  let name ← token Token.identifier
  token Token.declares
  let value ← expr
  let _ ← optional (mark ";")
  return (kind, name, value)

/-- Declarations and a result in braces. -/
def functionBody : Parser Body := do
  mark "\x7b"
  let declarations ← many (declaration expr)
  token (Token.word "return")
  let result ← expr
  let _ ← optional (mark ";")
  mark "\x7d"
  return declarations.foldr (fun d rest => .declare d.1 d.2.1 d.2.2 rest) (.result result)

/-- An arrow function without parameters. -/
def arrowFunction : Parser Body := do
  mark "("
  mark ")"
  mark "=>"
  orElse (functionBody expr) (andThen expr fun e => found (.result e))

/-- A function expression without parameters. -/
def functionExpression : Parser Body := do
  token (Token.word "function")
  mark "("
  mark ")"
  functionBody expr

/-- A function that is invoked at once. -/
def invocation : Parser Node := do
  mark "("
  let body ← orElse (arrowFunction expr) (functionExpression expr)
  mark ")"
  mark "("
  mark ")"
  return .invoked body

/-- What a chain starts from. -/
def primary : Parser Node :=
  firstOf
    [invocation expr,
      Node.literal <$> token Token.number,
      Node.literal <$> token Token.quotedText,
      Node.literal <$> token Token.keyword,
      arrayLiteral expr,
      Node.identifier <$> token Token.identifier,
      group expr]

def bracketed : Parser Node := do
  mark "["
  let i ← expr
  mark "]"
  return i

def arguments : Parser (List Node) := do
  mark "("
  let args ← optional (listed expr)
  mark ")"
  return args.getD []

def link : Parser Link :=
  firstOf
    [do
      token Token.optionalLink
      let i ← bracketed expr
      return .index i true,
    do
      token Token.optionalLink
      let args ← arguments expr
      return .call args true,
    do
      token Token.optionalLink
      let p ← token Token.propertyName
      return .member p true,
    do
      mark "."
      let p ← token Token.propertyName
      return .member p false,
    do
      let i ← bracketed expr
      return .index i false,
    do
      let args ← arguments expr
      return .call args false]

/-- A primary followed by links. -/
def postfixLevel : Parser Node := do
  let receiver ← primary expr
  let links ← many (link expr)
  return attachAll receiver links

/-- Prefix operators before a chain. -/
def unaryLevel : Parser Node := do
  let ops ← many (token Token.unaryOp)
  let operand ← postfixLevel expr
  return ops.foldr Node.unary operand

/-- Products. -/
def multiplicativeLevel : Parser Node :=
  leftAssoc (unaryLevel expr) Token.multiplicativeOp Node.binary

/-- Sums. -/
def additiveLevel : Parser Node :=
  leftAssoc (multiplicativeLevel expr) Token.additiveOp Node.binary

/-- Order. -/
def relationalLevel : Parser Node :=
  leftAssoc (additiveLevel expr) Token.relationalOp Node.binary

/-- Equality. -/
def equalityLevel : Parser Node :=
  leftAssoc (relationalLevel expr) Token.equalityOp Node.binary

/-- Conjunction. -/
def andLevel : Parser Node :=
  leftAssoc (equalityLevel expr) (Token.meaning (Token.exactly "&&") LogicalOp.and) Node.logical

/-- Disjunction. -/
def orLevel : Parser Node :=
  leftAssoc (andLevel expr) (Token.meaning (Token.exactly "||") LogicalOp.or) Node.logical

/-- The first operand that is not nullish. -/
def nullishLevel : Parser Node :=
  leftAssoc (orLevel expr) (Token.meaning (Token.exactly "??") LogicalOp.nullish) Node.logical

/-- A conditional, or a level above it. -/
def conditionalLevel : Parser Node := do
  let test ← nullishLevel expr
  let branches ← optional do
    token Token.question
    let consequent ← expr
    mark ":"
    let alternate ← expr
    return (consequent, alternate)
  match branches with
  | some (consequent, alternate) => return .conditional test consequent alternate
  | none => return test

end Levels

/-- An expression nested at most `depth` deep. -/
def expression : Nat → Parser Node
  | 0 => fail
  | depth + 1 => conditionalLevel (expression depth)

/-- A whole text: an expression and an optional semicolon. -/
def whole (depth : Nat) : Parser Node := do
  let e ← expression depth
  let _ ← optional (mark ";")
  token Token.ending
  return e

end Parser

/-- The expression a trimmed text writes. Every nesting takes a character, so the length of the text
bounds its depth. -/
def parseTrimmed (text : String) : Outcome Node :=
  if text = "" then .error (.noExpression .empty text 0)
  else
    let cs := text.toList
    match (Parser.whole (cs.length + 1)).run cs with
    | ⟨some (node, _), _⟩ =>
      if node.readable then .ok node else .error (.noExpression .unbuildable text 0)
    | ⟨none, reach⟩ => .error (.noExpression .malformed text (cs.length - reach.getD cs.length))

/-- The expression a text writes, blanks around it aside. -/
def parse (source : String) : Outcome Node :=
  match source.trimBlank with
  | "" => .error (.noExpression .empty source 0)
  | text => parseTrimmed text

/-- The expression a value writes, which has to be a text. -/
def parseValue (source : Value) : Outcome Node :=
  match source with
  | .text s => parse s
  | v => .error (.noExpression (.notText v.kindName) v.quoted 0)

end FormRules.Expr
