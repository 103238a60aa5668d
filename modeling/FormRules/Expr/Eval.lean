import FormRules.Expr.Method
import FormRules.Expr.Parser

/-!
# Evaluating expressions

An expression is evaluated against a look-up of names, in any monad, so that the look-up may record
what is read. The only other inputs are the literals; there are no effects. A link with `?.` on a
nullish receiver ends the chain it belongs to.
-/

namespace FormRules.Expr

/-- Why evaluation stops. -/
inductive Stop
  | cause (c : RuntimeCause)
  /-- An optional link met a nullish receiver. -/
  | nullishLink

/-- Names with their values. -/
abbrev Scope := List (String × Value)

/-- Property names that can never be read. -/
def blockedProperties : List String :=
  ["constructor", "__proto__", "prototype", "__defineGetter__", "__defineSetter__",
    "__lookupGetter__", "__lookupSetter__"]

/-- Whether a property can never be read: a blocked name, or one between double underscores. -/
def isBlocked (name : String) : Bool :=
  blockedProperties.contains name ||
    ("__".toList.isPrefixOf name.toList && "__".toList.isSuffixOf name.toList)

/-- A property name or an index. -/
inductive PropertyKey
  | name (s : String)
  | number (n : Number)

/-- The key that a computed index gives. -/
def PropertyKey.ofValue : Value → PropertyKey
  | .text s => .name s
  | .num n => .number n
  | v => .name v.toText

/-- The position that a key names in a text or sequence. -/
def PropertyKey.position? : PropertyKey → Option Int
  | .number n => n.toInt?
  | .name s => if s != "" && s.toList.all Text.isFigure then (Number.ofText s).toInt? else none

/-- The entry of a mapping under a key; a number is looked up as a key of its own, then as text. -/
def lookUp? (es : Entries) : PropertyKey → Option Value
  | .name s => Table.get? es (.name s)
  | .number n =>
    match (Key.ofNumber? n).bind (Table.get? es) with
    | some v => some v
    | none => Table.get? es (.name n.text)

/-- Reads a property that is not blocked. -/
def property (receiver : Value) (key : PropertyKey) : Value :=
  let isLength : Bool := match key with
    | .name s => s = "length"
    | .number _ => false
  match receiver with
  | .map es => (lookUp? es key).getD .undefined
  | .text s =>
    let cs := s.toList
    if isLength then .int cs.length
    else match key.position? with
      | some i => if i < 0 then .undefined
        else match cs[i.toNat]? with
          | some c => .text (String.singleton c)
          | none => .undefined
      | none => .undefined
  | .seq _ items =>
    if isLength then .int items.length
    else (key.position?.bind (Value.item? items)).getD .undefined
  | _ => .undefined

/-- Reads a property; nullish receivers have none, and blocked names stop the evaluation. -/
def readProperty (receiver : Value) (key : PropertyKey) : Except Stop Value :=
  if receiver.isNullish then .ok .undefined
  else match key with
    | .name s =>
      if isBlocked s then .error (.cause (.blockedProperty s)) else .ok (property receiver key)
    | .number _ => .ok (property receiver key)

/-- A number, or a failed evaluation. -/
def numeric (n : Option Number) : Except Stop Value :=
  match n with
  | some n => .ok (.num n.tidy)
  | none => .error (.cause .failed)

/-- Whether a value makes a sum a concatenation. -/
def concatenates : Value → Bool
  | .text _ | .seq _ _ | .map _ => true
  | _ => false

/-- Compares texts by their characters and anything else by number; a NaN compares false. -/
def ordered (left right : Value) (texts : String → String → Bool) (numbers : Number → Number → Bool) :
    Except Stop Value :=
  match left, right with
  | .text s, .text t => .ok (.bool (texts s t))
  | l, r =>
    let a := l.toNumber
    let b := r.toNumber
    -- the left operand is looked at first: a NaN there hides a number on the right that is too large
    if !a.fitsBinary64 then .error (.cause .failed)
    else if a.isNaN then .ok (.bool false)
    else if !b.fitsBinary64 then .error (.cause .failed)
    else if b.isNaN then .ok (.bool false)
    else .ok (.bool (numbers a b))

/-- Applies an operator to both operands. Division by zero and its remainder are `null`. -/
def applyBinary (op : BinaryOp) (left right : Value) : Except Stop Value :=
  let a := left.toNumber
  let b := right.toNumber
  match op with
  | .add =>
    if concatenates left || concatenates right then .ok (.text (left.toText ++ right.toText))
    else numeric (a.add b)
  | .sub => numeric (a.sub b)
  | .mul => numeric (a.mul b)
  | .div => if b.isZero then .ok .null else numeric (a.div b)
  | .rem => if b.isZero then .ok .null else numeric (a.rem b)
  | .strictEq => .ok (.bool (left.strictEq right))
  | .strictNe => .ok (.bool (!left.strictEq right))
  | .looseEq => .ok (.bool (left.looseEq right))
  | .looseNe => .ok (.bool (!left.looseEq right))
  | .lt => ordered left right (fun s t => s < t) Number.lt
  | .gt => ordered left right (fun s t => t < s) (fun a b => b.lt a)
  | .le => ordered left right (fun s t => !(t < s)) Number.le
  | .ge => ordered left right (fun s t => !(s < t)) (fun a b => b.le a)

/-- Applies an operator to its operand; `typeof` is evaluated apart. -/
def applyUnary (op : UnaryOp) (v : Value) : Value :=
  match op with
  | .not => .bool (!v.truthy)
  | .negate => .num v.toNumber.neg.tidy
  | .plus => .num v.toNumber
  | .typeOf => .text v.typeName

/-- Whether the left operand is the result, so that the right one is not evaluated. -/
def LogicalOp.decides (op : LogicalOp) (left : Value) : Bool :=
  match op with
  | .and => !left.truthy
  | .or => left.truthy
  | .nullish => !left.isNullish

def callMethod (receiver : Value) (name : String) (args : List Value) : Except Stop Value :=
  (Method.call receiver name args).mapError .cause

/-- Whether a method may be called, before its arguments are evaluated. -/
def admitMethod (receiver : Value) (name : String) : Except Stop Unit :=
  if isBlocked name then .error (.cause (.blockedProperty name))
  else if Method.isAllowed receiver name then .ok ()
  else .error (.cause (.methodNotAllowed name))

section
variable {m : Type → Type} [Monad m] (lookup : String → m (Option Value))

/-- A name: a declaration around it, else what the look-up gives. -/
def readName (locals : Scope) (name : String) : ExceptT Stop m Value :=
  match locals.lookup name with
  | some v => return v
  | none => do return (← lookup name).getD .undefined

/-- Turns the end of a chain into `undefined`. -/
def endChain (x : ExceptT Stop m Value) : ExceptT Stop m Value :=
  ExceptT.mk do
    match ← x.run with
    | .error .nullishLink => return .ok .undefined
    | r => return r

mutual

/-- The value of an expression under declarations. -/
def eval (locals : Scope) : Node → ExceptT Stop m Value
  | .literal l => return l.value
  | .identifier name => readName lookup locals name
  | .array es => do return .list (← evalAll locals es)
  | .member o p optional => do
    let receiver ← eval locals o
    if optional && receiver.isNullish then throw .nullishLink
    ExceptT.mk (pure (readProperty receiver (.name p)))
  | .index o i optional => do
    let receiver ← eval locals o
    if optional && receiver.isNullish then throw .nullishLink
    let key ← eval locals i
    ExceptT.mk (pure (readProperty receiver (.ofValue key)))
  | .call (.member o p optionalMember) args optional => do
    let receiver ← eval locals o
    if receiver.isNullish then
      if optionalMember || optional then throw .nullishLink
      throw (.cause (.callOnNullish p receiver.toText))
    ExceptT.mk (pure (admitMethod receiver p))
    let values ← evalAll locals args
    ExceptT.mk (pure (callMethod receiver p values))
  | .call (.index o i optionalMember) args optional => do
    let receiver ← eval locals o
    if receiver.isNullish then
      if optionalMember || optional then throw .nullishLink
      -- the message names the method, so that its expression is evaluated after all
      throw (.cause (.callOnNullish (← eval locals i).toText receiver.toText))
    let name := (← eval locals i).toText
    ExceptT.mk (pure (admitMethod receiver name))
    let values ← evalAll locals args
    ExceptT.mk (pure (callMethod receiver name values))
  | .call _ _ _ => throw (.cause .notAMethodCall)
  | .chain e => endChain (eval locals e)
  | .unary .typeOf e => do return .text (← endChain (eval locals e)).typeName
  | .unary op e => do return applyUnary op (← eval locals e)
  | .binary op l r => do
    let left ← eval locals l
    let right ← eval locals r
    ExceptT.mk (pure (applyBinary op left right))
  | .logical op l r => do
    let left ← eval locals l
    if LogicalOp.decides op left then return left else eval locals r
  | .conditional t c a => do
    if (← eval locals t).truthy then eval locals c else eval locals a
  | .invoked body => evalBody locals [] body

/-- The values of expressions, in order. -/
def evalAll (locals : Scope) : List Node → ExceptT Stop m (List Value)
  | [] => return []
  | e :: es => do
    let v ← eval locals e
    return v :: (← evalAll locals es)

/-- The result of a body; each declaration is visible to the following ones, and a name is declared
once. -/
def evalBody (locals : Scope) (declared : List String) : Body → ExceptT Stop m Value
  | .result v => eval locals v
  | .declare _ name v rest => do
    if declared.contains name then throw (.cause (.redeclared name))
    let value ← eval locals v
    evalBody ((name, value) :: locals) (name :: declared) rest

end

/-- Evaluation of a whole expression: the end of a chain that no chain contains is `undefined`. -/
def evalWhole (node : Node) : ExceptT Fault m Value :=
  ExceptT.mk do
    match ← (eval lookup [] node).run with
    | .ok v => return .ok v
    | .error .nullishLink => return .ok .undefined
    | .error (.cause c) => return .error (.noValue c)

end

def valueIn (scope : Scope) (node : Node) : Outcome Value :=
  Id.run (evalWhole (m := Id) (fun name => pure (scope.lookup name)) node).run

/-- Parses and evaluates a text. -/
def evaluate (source : String) (scope : Scope) : Outcome Value := do
  valueIn scope (← parse source)

/-- Parses and evaluates a value that has to be a text. -/
def evaluateValue (source : Value) (scope : Scope) : Outcome Value := do
  valueIn scope (← parseValue source)

end FormRules.Expr
