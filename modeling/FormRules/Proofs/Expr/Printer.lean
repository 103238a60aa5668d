import FormRules.Expr.Parser

/-!
# Expressions written out

An expression is written with parentheses around the parts that bind less tightly than their place asks for, and
around nothing else. Operators of one level lean to the left, so that the place on the right asks for the next level;
a conditional stands without parentheses in the branches of another. How tightly an invoked function binds is left
open: it is the rank `k`, so that the levels of the language may give it the lowest rank or that of a name.
-/

namespace FormRules
open Expr

/-! ## Levels -/

/-- How tightly the operator binds. -/
def LogicalOp.level : LogicalOp → Nat
  | .nullish => 1
  | .or => 2
  | .and => 3

/-- How tightly the operator binds. -/
def BinaryOp.level : BinaryOp → Nat
  | .strictEq | .strictNe | .looseEq | .looseNe => 4
  | .lt | .gt | .le | .ge => 5
  | .add | .sub => 6
  | .mul | .div | .rem => 7

theorem LogicalOp.level_mem (op : LogicalOp) : 1 ≤ op.level ∧ op.level ≤ 3 := by
  cases op <;> decide

theorem BinaryOp.level_mem (op : BinaryOp) : 4 ≤ op.level ∧ op.level ≤ 7 := by
  cases op <;> decide

/-- How tightly the parts of an expression are held together. Links that are no chain of their own bind more tightly
than chains, on which no link may be put. -/
def Node.rank (k : Nat) : Node → Nat
  | .conditional _ _ _ => 0
  | .logical op _ _ => op.level
  | .binary op _ _ => op.level
  | .unary _ _ => 8
  | .chain _ => 9
  | .member _ _ _ | .index _ _ _ | .call _ _ _ => 10
  | .literal _ | .identifier _ | .array _ => 11
  | .invoked _ => k

/-! ## Texts -/

/-- A character between single quotes. -/
def quotedChar (c : Char) : List Char := if c = '\'' ∨ c = '\\' then ['\\', c] else [c]

/-- A literal, numbers in decimal and texts in single quotes. -/
def Literal.written : Literal → List Char
  | .int n => Nat.toDigits 10 n
  | .float x => x.text.toList
  | .text s => '\'' :: (s.toList.flatMap quotedChar ++ ['\''])
  | .bool b => (if b then "true" else "false").toList
  | .null => "null".toList
  | .undefined => "undefined".toList

/-- An operator in front of its operand. -/
def UnaryOp.written : UnaryOp → List Char
  | .typeOf => "typeof ".toList
  | op => op.token.toList

/-- Parentheses where they are needed. -/
def enclose (needed : Bool) (cs : List Char) : List Char := if needed then '(' :: (cs ++ [')']) else cs

mutual

/-- An expression without parentheses around it. -/
def Node.bare (k : Nat) : Node → List Char
  | .literal l => l.written
  | .identifier w => w.toList
  | .array es => '[' :: (Node.listing k es ++ [']'])
  | .member o p optional => enclose (o.rank k < 10) (o.bare k) ++ ((if optional then "?." else ".").toList ++ p.toList)
  | .index o i optional =>
    enclose (o.rank k < 10) (o.bare k) ++ ((if optional then "?.[" else "[").toList ++ (i.bare k ++ [']']))
  | .call c as optional =>
    enclose (c.rank k < 10) (c.bare k) ++ ((if optional then "?.(" else "(").toList ++ (Node.listing k as ++ [')']))
  | .chain e => e.bare k
  | .unary op e => op.written ++ enclose (e.rank k < 8) (e.bare k)
  | .binary op l r => enclose (l.rank k < op.level) (l.bare k) ++
      ' ' :: (op.token.toList ++ ' ' :: enclose (r.rank k < op.level + 1) (r.bare k))
  | .logical op l r => enclose (l.rank k < op.level) (l.bare k) ++
      ' ' :: (op.token.toList ++ ' ' :: enclose (r.rank k < op.level + 1) (r.bare k))
  | .conditional t c a =>
    enclose (t.rank k < 1) (t.bare k) ++ (" ? ".toList ++ (c.bare k ++ (" : ".toList ++ a.bare k)))
  | .invoked b => "(() => \x7b ".toList ++ (b.bare k ++ "\x7d)()".toList)

/-- Expressions between commas. -/
def Node.listing (k : Nat) : List Node → List Char
  | [] => []
  | e :: es => e.bare k ++ Node.listed k es

/-- Expressions behind others, each after a comma. -/
def Node.listed (k : Nat) : List Node → List Char
  | [] => []
  | e :: es => ", ".toList ++ (e.bare k ++ Node.listed k es)

/-- Declarations and a result, each of which ends in a semicolon. -/
def Body.bare (k : Nat) : Body → List Char
  | .result v => "return ".toList ++ (v.bare k ++ "; ".toList)
  | .declare kind name v rest =>
    kind.token.toList ++ ' ' :: (name.toList ++ (" = ".toList ++ (v.bare k ++ ("; ".toList ++ rest.bare k))))

end

/-- An expression at a place that asks for a level. -/
def Node.place (k ℓ : Nat) (n : Node) : List Char := enclose (n.rank k < ℓ) (n.bare k)

/-- The text of an expression. -/
def Node.text (k : Nat) (n : Node) : String := String.ofList (n.bare k)

section
variable (k : Nat) (n o l r t c a : Node) (optional : Bool)

theorem Node.bare_member (p : String) : (Node.member o p optional).bare k =
    o.place k 10 ++ ((if optional then "?." else ".").toList ++ p.toList) := rfl

theorem Node.bare_index : (Node.index o n optional).bare k =
    o.place k 10 ++ ((if optional then "?.[" else "[").toList ++ (n.bare k ++ [']'])) := rfl

theorem Node.bare_call (as : List Node) : (Node.call o as optional).bare k =
    o.place k 10 ++ ((if optional then "?.(" else "(").toList ++ (Node.listing k as ++ [')'])) := rfl

theorem Node.bare_conditional : (Node.conditional t c a).bare k =
    t.place k 1 ++ (" ? ".toList ++ (c.bare k ++ (" : ".toList ++ a.bare k))) := rfl

theorem Node.bare_invoked (b : Body) : (Node.invoked b).bare k = "(() => \x7b ".toList ++ (b.bare k ++ "\x7d)()".toList) := rfl

theorem Node.listed_cons (es : List Node) : Node.listed k (n :: es) = ", ".toList ++ (n.bare k ++ Node.listed k es) := rfl

theorem Body.bare_result : (Body.result n).bare k = "return ".toList ++ (n.bare k ++ "; ".toList) := rfl

theorem Body.bare_declare (kind : DeclarationKind) (name : String) (rest : Body) : (Body.declare kind name n rest).bare k =
    kind.token.toList ++ ' ' :: (name.toList ++ (" = ".toList ++ (n.bare k ++ ("; ".toList ++ rest.bare k)))) := rfl

end

variable {k ℓ : Nat} {n : Node}

theorem Node.place_of_lt (h : n.rank k < ℓ) : n.place k ℓ = '(' :: (n.bare k ++ [')']) := by
  rw [place, decide_eq_true h]
  rfl

theorem Node.place_of_le (h : ℓ ≤ n.rank k) : n.place k ℓ = n.bare k := by
  rw [place, decide_eq_false (Nat.not_lt.mpr h)]
  rfl

/-! ## What can be written -/

/-- Whether a word can be a property's name. -/
def isSpelled (w : String) : Bool :=
  match w.toList with
  | [] => false
  | c :: cs => Token.opensName c && cs.all Token.continuesName

/-- Whether a word can be a name: one in front of which no reserved word stands. -/
def isIdentifier (w : String) : Bool :=
  isSpelled w && !Token.reservedWords.contains (String.ofList (Token.wordRun w.toList))

/-- Whether a literal has a text: there are no signs in numerals, nor numerals for NaN. -/
def Literal.spelled : Literal → Bool
  | .float (.finite u _) => 0 ≤ u
  | .float _ => false
  | _ => true

mutual

/-- Whether the names and literals of an expression have a text. -/
def Node.spelled : Node → Bool
  | .literal l => l.spelled
  | .identifier w => isIdentifier w
  | .array es => Node.allSpelled es
  | .member o p _ => o.spelled && isSpelled p
  | .index o i _ => o.spelled && i.spelled
  | .call c as _ => c.spelled && Node.allSpelled as
  | .chain e => e.spelled
  | .unary _ e => e.spelled
  | .binary _ l r | .logical _ l r => l.spelled && r.spelled
  | .conditional t c a => t.spelled && c.spelled && a.spelled
  | .invoked b => b.spelled

def Node.allSpelled : List Node → Bool
  | [] => true
  | e :: es => e.spelled && Node.allSpelled es

def Body.spelled : Body → Bool
  | .result v => v.spelled
  | .declare _ name v rest => isIdentifier name && v.spelled && rest.spelled

end

end FormRules
