import FormRules.Fault
import FormRules.Text.Casing
import FormRules.Value.Equality

/-!
# Methods

The methods that expressions may call on texts, numbers and sequences. Positions are integers
counted in characters; missing arguments are `undefined`; a call with too many arguments, or without
one that has no default, fails.
-/

namespace FormRules.Method

def textMethods : List String :=
  ["charAt", "concat", "endsWith", "includes", "indexOf", "lastIndexOf", "padEnd", "padStart",
    "repeat", "replace", "slice", "split", "startsWith", "substring", "toLowerCase", "toUpperCase",
    "trim", "trimEnd", "trimStart", "toString"]

def numberMethods : List String := ["toFixed", "toString"]

def sequenceMethods : List String :=
  ["concat", "includes", "indexOf", "join", "lastIndexOf", "slice", "toString"]

/-- Whether the method may be called on the value. -/
def isAllowed (receiver : Value) (name : String) : Bool :=
  match receiver with
  | .text _ => textMethods.contains name
  | .num _ => numberMethods.contains name
  | .seq _ _ => sequenceMethods.contains name
  | _ => false

/-- An argument as a position; `undefined` is the default. -/
def position (v : Value) (default : Int) : Int :=
  match v with
  | .undefined => default
  | v => v.toNumber.toPosition

/-- A position counted from the end if negative, within `0 … length`. -/
def relative (i : Int) (length : Nat) : Nat :=
  if i < 0 then (length + i).toNat else min i.toNat length

/-- A position within `0 … length`. -/
def clamped (i : Int) (length : Nat) : Nat := min i.toNat length

/-- The items from one position up to another. -/
def between {α : Type} (xs : List α) (start stop : Nat) : List α := (xs.take stop).drop start

/-- The items between two relative positions, by default all. -/
def slice {α : Type} (xs : List α) (start stop : Value) : List α :=
  between xs (relative (position start 0) xs.length)
    (if stop.isUndefined then xs.length else relative (position stop xs.length) xs.length)

/-- The first place at or after `offset` where `part` occurs. -/
def findFrom? (part : List Char) : Nat → List Char → Option Nat
  | offset, [] => if part.isEmpty then some offset else none
  | offset, c :: cs =>
    if part.isPrefixOf (c :: cs) then some offset else findFrom? part (offset + 1) cs

/-- The first place from `start` on where `part` occurs, or `-1`. -/
def indexOf (part whole : List Char) (start : Nat) : Int :=
  if whole.length < start then -1
  else match findFrom? part start (whole.drop start) with
    | some i => i
    | none => -1

/-- The last place where `part` occurs, or `-1`. -/
def lastIndexOf (part whole : List Char) : Int :=
  match findFrom? part.reverse 0 whole.reverse with
  | some i => whole.length - part.length - i
  | none => -1

/-- The pieces between occurrences of a nonempty separator; `piece` is the current one, reversed,
and `skip` counts characters of the separator still to be passed. -/
def splitAt (separator : List Char) (piece : List Char) : Nat → List Char → List (List Char)
  | _, [] => [piece.reverse]
  | skip + 1, _ :: cs => splitAt separator piece skip cs
  | 0, c :: cs =>
    if separator.isPrefixOf (c :: cs) then piece.reverse :: splitAt separator [] (separator.length - 1) cs
    else splitAt separator (c :: piece) 0 cs

/-- Replaces the first occurrence of `part`. -/
def replaceFirst (part new : List Char) (whole : List Char) : List Char :=
  match findFrom? part 0 whole with
  | some i => whole.take i ++ new ++ whole.drop (i + part.length)
  | none => whole

/-- The most that a text may be repeated or hold. -/
def largestCount : Nat := Nat.pow 2 63 - 1

/-- A text repeated, unless it would get too long. -/
def repeated? (cs : List Char) (count : Int) : Option (List Char) :=
  if largestCount < count.toNat ∨ largestCount < cs.length * count.toNat then none
  else if cs.isEmpty then some []
  else some (List.replicate count.toNat cs).flatten

/-- Filling that brings a text to a length. -/
def padding? (cs : List Char) (length : Int) (fill : Value) : Option (List Char) :=
  let filler := if fill.isUndefined then [' '] else fill.toText.toList
  if length ≤ cs.length ∨ filler.isEmpty then some []
  else
    let missing := (length - cs.length).toNat
    (repeated? filler (missing / filler.length + 1 : Nat)).map (·.take missing)

def chars (cs : List Char) : Value := .text (String.ofList cs)

/-- An argument by position. -/
def arg (args : List Value) (i : Nat) : Value := args.getD i .undefined

/-- The pieces of a text, by default one; at most as many as the limit says. -/
def split (cs : List Char) (separator limit : Value) : List Value :=
  let pieces : List (List Char) :=
    if separator.isUndefined then [cs]
    else
      match separator.toText.toList with
      | [] => cs.map fun c => [c]
      | sep => splitAt sep [] 0 cs
  let pieces := if limit.isUndefined then pieces else pieces.take (position limit 0).toNat
  pieces.map chars

/-- A number with a fixed count of places. -/
def toFixed (n : Number) (digits : Value) : Except RuntimeCause Value :=
  let d := position digits 0
  if d < 0 ∨ 100 < d then .error .fixedDigits
  else match n.fixedText? d.toNat with
    | some s => .ok (.text s)
    | none => .error (.methodFailed "toFixed")

/-- A number in a base; only integral numbers are written in bases other than ten. -/
def numberText (n : Number) (radix : Value) : Except RuntimeCause Value :=
  let base := position radix 0
  if radix.isUndefined ∨ base = 10 then .ok (.text n.text)
  else match Radix.ofInt? base with
    | none => .ok (.text n.text)
    | some r =>
      if !n.fitsBinary64 then .error (.methodFailed "toString")
      else match n.toInt? with
        | some i => .ok (.text (r.text i))
        | none => .ok (.text n.text)

/-- The position of the first item equal to the target, from `i` on. -/
def indexOfItem (target : Value) : Nat → List Value → Int
  | _, [] => -1
  | i, v :: vs => if v.strictEq target then i else indexOfItem target (i + 1) vs

/-- The position of the last item equal to the target. -/
def lastIndexOfItem (target : Value) (items : List Value) : Int :=
  match indexOfItem target 0 items.reverse with
  | .ofNat i => items.length - 1 - i
  | i => i

/-- Whether an item equals the target; here a NaN finds a NaN. -/
def includesItem (items : List Value) (target : Value) : Bool :=
  match target with
  | .num (.float .nan) => items.any fun v =>
    match v with
    | .num n => n.isNaN
    | _ => false
  | _ => items.any (·.strictEq target)

/-- The items with those of sequence arguments and the other arguments behind. -/
def concatItems (items args : List Value) : List Value :=
  items ++ args.flatMap fun a =>
    match a with
    | .seq _ more => more
    | v => [v]

def callText (cs : List Char) (name : String) (args : List Value) : Except RuntimeCause Value :=
  let fail := Except.error (RuntimeCause.methodFailed name)
  let upTo (count : Nat) (v : Value) := if args.length ≤ count then .ok v else fail
  let first := (arg args 0).toText.toList
  match name with
  | "charAt" =>
    let i := position (arg args 0) 0
    upTo 1 (chars (if i < 0 then [] else (cs.drop i.toNat).take 1))
  | "concat" => .ok (chars (cs ++ args.flatMap fun a => a.toText.toList))
  | "endsWith" => upTo 1 (.bool (first.isSuffixOf cs))
  | "includes" =>
    upTo 2 (.bool (findFrom? first 0 (cs.drop (position (arg args 1) 0).toNat)).isSome)
  | "indexOf" => upTo 2 (.int (indexOf first cs (position (arg args 1) 0).toNat))
  | "lastIndexOf" => upTo 1 (.int (lastIndexOf first cs))
  | "padEnd" =>
    if args.length ≤ 2 then
      match padding? cs (position (arg args 0) 0) (arg args 1) with
      | some pad => .ok (chars (cs ++ pad))
      | none => fail
    else fail
  | "padStart" =>
    if args.length ≤ 2 then
      match padding? cs (position (arg args 0) 0) (arg args 1) with
      | some pad => .ok (chars (pad ++ cs))
      | none => fail
    else fail
  | "repeat" =>
    if args.length ≤ 1 then
      match repeated? cs (position (arg args 0) 0) with
      | some r => .ok (chars r)
      | none => fail
    else fail
  | "replace" => upTo 2 (chars (replaceFirst first (arg args 1).toText.toList cs))
  | "slice" => upTo 2 (chars (slice cs (arg args 0) (arg args 1)))
  | "split" => upTo 2 (.list (split cs (arg args 0) (arg args 1)))
  | "startsWith" => upTo 1 (.bool (first.isPrefixOf cs))
  | "substring" =>
    let a := clamped (position (arg args 0) 0) cs.length
    let b := if (arg args 1).isUndefined then cs.length
      else clamped (position (arg args 1) cs.length) cs.length
    upTo 2 (chars (between cs (min a b) (max a b)))
  | "toLowerCase" => upTo 0 (chars (Text.lower cs))
  | "toUpperCase" => upTo 0 (chars (Text.upper cs))
  | "trim" => upTo 0 (chars (Text.trim cs))
  | "trimEnd" => upTo 0 (chars (Text.trimRight cs))
  | "trimStart" => upTo 0 (chars (Text.trimLeft cs))
  | "toString" => upTo 0 (chars cs)
  | _ => .error (.methodNotAllowed name)

def callNumber (n : Number) (name : String) (args : List Value) : Except RuntimeCause Value :=
  if 1 < args.length then .error (.methodFailed name)
  else match name with
    | "toFixed" => toFixed n (arg args 0)
    | "toString" => numberText n (arg args 0)
    | _ => .error (.methodNotAllowed name)

def callSequence (kind : SeqKind) (items : List Value) (name : String) (args : List Value) :
    Except RuntimeCause Value :=
  let fail := Except.error (RuntimeCause.methodFailed name)
  let within (least most : Nat) (v : Value) :=
    if least ≤ args.length ∧ args.length ≤ most then .ok v else fail
  match name with
  | "concat" => .ok (.list (concatItems items args))
  | "includes" => within 1 1 (.bool (includesItem items (arg args 0)))
  | "indexOf" =>
    let start := relative (position (arg args 1) 0) items.length
    within 1 2 (.int (indexOfItem (arg args 0) start (items.drop start)))
  | "join" =>
    let separator := if (arg args 0).isUndefined then "," else (arg args 0).toText
    within 0 1 (.text (separator.intercalate (Value.itemTexts items)))
  | "lastIndexOf" => within 1 1 (.int (lastIndexOfItem (arg args 0) items))
  | "slice" => within 0 2 (.list (slice items (arg args 0) (arg args 1)))
  | "toString" => within 0 0 (.text (Value.seq kind items).toText)
  | _ => .error (.methodNotAllowed name)

def call (receiver : Value) (name : String) (args : List Value) : Except RuntimeCause Value :=
  match receiver with
  | .text s => callText s.toList name args
  | .num n => callNumber n name args
  | .seq kind items => callSequence kind items name args
  | _ => .error (.methodNotAllowed name)

end FormRules.Method
