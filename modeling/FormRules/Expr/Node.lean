import FormRules.Value.Basic

/-!
# Expressions

The syntax tree of the expression language: literals, names, arrays, property chains with optional
links, operators, the conditional, and bodies of declarations that are invoked where they stand.
There are no assignments, loops or object literals.
-/

namespace FormRules

/-- A literal of the expression language. -/
inductive Literal
  | int (n : Nat)
  | float (x : Binary64)
  | text (s : String)
  | bool (b : Bool)
  | null
  | undefined
  deriving DecidableEq

def Literal.value : Literal → Value
  | .int n => .num (.int n)
  | .float x => .num (.float x)
  | .text s => .text s
  | .bool b => .bool b
  | .null => .null
  | .undefined => .undefined

/-- Operators before their operand. -/
inductive UnaryOp
  | not
  | negate
  | plus
  | typeOf
  deriving DecidableEq

/-- Operators that evaluate both operands. -/
inductive BinaryOp
  | add
  | sub
  | mul
  | div
  | rem
  | strictEq
  | strictNe
  | looseEq
  | looseNe
  | lt
  | gt
  | le
  | ge
  deriving DecidableEq

/-- Operators that may skip their right operand. -/
inductive LogicalOp
  | and
  | or
  | nullish
  deriving DecidableEq

/-- The words that open a declaration. -/
inductive DeclarationKind
  | const
  | let
  deriving DecidableEq

namespace UnaryOp

/-- The operator as written. -/
def token : UnaryOp → String
  | not => "!"
  | negate => "-"
  | plus => "+"
  | typeOf => "typeof"

end UnaryOp

namespace BinaryOp

/-- The operator as written. -/
def token : BinaryOp → String
  | add => "+"
  | sub => "-"
  | mul => "*"
  | div => "/"
  | rem => "%"
  | strictEq => "==="
  | strictNe => "!=="
  | looseEq => "=="
  | looseNe => "!="
  | lt => "<"
  | gt => ">"
  | le => "<="
  | ge => ">="

end BinaryOp

namespace LogicalOp

/-- The operator as written. -/
def token : LogicalOp → String
  | and => "&&"
  | or => "||"
  | nullish => "??"

end LogicalOp

/-- The word as written. -/
def DeclarationKind.token : DeclarationKind → String
  | .const => "const"
  | .let => "let"

mutual

/-- An expression. -/
inductive Node
  | literal (l : Literal)
  | identifier (name : String)
  | array (elements : List Node)
  | member (object : Node) (property : String) (optional : Bool)
  | index (object index : Node) (optional : Bool)
  | call (callee : Node) (args : List Node) (optional : Bool)
  /-- A chain with optional links; a nullish receiver of one ends the whole chain. -/
  | chain (expression : Node)
  | unary (op : UnaryOp) (operand : Node)
  | binary (op : BinaryOp) (left right : Node)
  | logical (op : LogicalOp) (left right : Node)
  | conditional (test consequent alternate : Node)
  /-- A body that is invoked at once. -/
  | invoked (body : Body)

/-- Declarations followed by a result. -/
inductive Body
  | result (value : Node)
  | declare (kind : DeclarationKind) (name : String) (value : Node) (rest : Body)

end

instance : Inhabited Node := ⟨.literal .undefined⟩

mutual

/-- Whether every integer literal has at most 4300 digits, the most that can be read. -/
def Node.readable : Node → Bool
  | .literal (.int n) => n < Nat.pow 10 4300
  | .literal _ | .identifier _ => true
  | .array es => Node.allReadable es
  | .member o _ _ => o.readable
  | .index o i _ => o.readable && i.readable
  | .call c as _ => c.readable && Node.allReadable as
  | .chain e => e.readable
  | .unary _ e => e.readable
  | .binary _ l r | .logical _ l r => l.readable && r.readable
  | .conditional t c a => t.readable && c.readable && a.readable
  | .invoked b => b.readable

def Node.allReadable : List Node → Bool
  | [] => true
  | e :: es => e.readable && Node.allReadable es

def Body.readable : Body → Bool
  | .result v => v.readable
  | .declare _ _ v rest => v.readable && rest.readable

end

end FormRules
