import FormRules.Validation.Validator

/-!
# Built-in rules

A rule passes or fails with parameters for the error. Every rule except `required` lets a blank value
through, and a rule whose bound is missing or no number lets everything through.
-/

namespace FormRules

/-- A computation that may report and fault. -/
abbrev Checking := ExceptT Fault Reporting

namespace Builtin
open Text

/-- What cannot stand in an address around the `@`: blanks and an `@`. -/
def addressStops : List Pattern.SetItem := [.class .blank false false, .range 64 64]

/-- Characters of an address, at least one. -/
def addressRun : Pattern := .repetition (.oneOf .exact true addressStops) 1 none .greedy

/-- An address: characters, an `@`, and further ones with a point between them, up to the end of the text or the line
break there. -/
def addressPattern : Pattern :=
  .seq (.edge .textStart) (.seq addressRun (.seq (.code .exact 64) (.seq addressRun
    (.seq (.code .exact 46) (.seq addressRun (.edge .lastLineEnd))))))

/-- Whether a text is an address. -/
def isEmail (s : String) : Bool := addressPattern.opens s

/-- The number of items or characters of a value that has a length. -/
def length? : Value → Option Nat
  | .text s => some s.length
  | .seq _ items => some items.length
  | _ => none

/-- The parameters of an error about a bound. -/
def boundParams (b : Builtin) (bound : Value) (name : String) (actual : Value) : Entries :=
  [(.name b.name, bound), (.name name, actual)]

/-- The error parameters unless the two values, as numbers, are as they should be. -/
def failIf (failed : Outcome Bool) (params : Entries) : Checking (Option Entries) :=
  match failed with
  | .ok b => return if b then some params else none
  | .error f => throw f

/-- Whether a text violates a pattern; a malformed pattern is reported and violated by nothing. -/
def violates (pattern text : String) : Checking Bool :=
  match Pattern.ofText? pattern with
  | .ok p => return !p.occursIn text
  | .error .malformed => do
    Journal.report .badPattern
    return false
  | .error .countTooLarge => throw (.breach .tooLarge)
  | .error .unreadable => throw .badValue

/-- The parameters of the error of a rule on a value that is not blank. -/
def failure (b : Builtin) (value bound : Value) : Checking (Option Entries) :=
  let measured (op : Number → Number → Bool) : Checking (Option Entries) :=
    match length? value with
    | none => return none
    | some n =>
      failIf (Comparison.numeric op (.int n) bound) (boundParams b bound "actualLength" (.int n))
  match b with
  | required => return none
  | email => return if isEmail value.toText then none else some []
  | min =>
    if bound.isNullish then return none
    else failIf (Comparison.numeric (fun a l => a.lt l) value bound)
      (boundParams b bound "actual" value)
  | max =>
    if bound.isNullish then return none
    else failIf (Comparison.numeric (fun a l => l.lt a) value bound)
      (boundParams b bound "actual" value)
  | minLength => if bound.isNullish then return none else measured fun n l => n.lt l
  | maxLength => if bound.isNullish then return none else measured fun n l => l.lt n
  | pattern => do
    if bound.isNullish then return none
    if ← violates bound.toText value.toText then
      return some (boundParams b (.text bound.toText) "actual" value)
    else return none

/-- The parameters of the error of a rule, or nothing if the value passes. -/
def check (b : Builtin) (value bound : Value) : Checking (Option Entries) :=
  match b with
  | required => return if value.isEmpty then some [] else none
  | b => if value.isBlank then return none else failure b value bound

/-- The check by a rule of any name; an unknown one is reported and passes. -/
def checkNamed (name : String) (value bound : Value) : Checking (Option Entries) :=
  match ofName? name with
  | some b => b.check value bound
  | none => do
    if !value.isBlank then Journal.report (.unknownBuiltin name)
    return none

end Builtin
end FormRules
