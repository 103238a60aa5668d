import FormRules.Derivation.Graph
import FormRules.Functions
import FormRules.Settings
import FormRules.Validation.Builtin

/-!
# Running derivations

The derivations that have a value at once are applied in order, pass after pass, until a pass changes
nothing or there have been enough. A derivation that faults is reported and skipped.
-/

namespace FormRules

namespace Derivation

/-- Adds a derivation, unless its function is unknown or it closes a loop of three or more targets. -/
def add (fs : Functions) (ds : List Derivation) (d : Derivation) : Outcome (List Derivation) := do
  match d.source with
  | .function name => let _ ← Functions.find fs.derivations .derivation name
  | .asyncFunction name => let _ ← Functions.find fs.asyncDerivations .asyncDerivation name
  | _ => pure ()
  match ← cycle? (ds ++ [d]) with
  | some walk => throw (.cycle walk)
  | none => return ds ++ [d]

/-- The derivations that have a value at once, in the order in which they are applied. -/
def order (ds : List Derivation) : Outcome (List Derivation) :=
  evaluationOrder (ds.filter fun d => !d.isAsync)

/-- Whether the condition of a derivation, if it has one, holds. -/
def isOpen (fs : Functions) (c : Context) (d : Derivation) : Reporting Bool :=
  match d.condition with
  | some g => g.holds fs.customFunctions c
  | none => return true

/-- The value that a derivation computes, unless its condition fails. -/
def compute (fs : Functions) (external root : Value) (d : Derivation) : Checking (Option Value) := do
  let c := Context.forKeys root (← ExceptT.mk (pure (Path.keys d.target))) external none
  if !(← d.isOpen fs c) then return none
  match d.source with
  | .fixed v => return some v
  | .expression code => ExceptT.mk (pure (some <$> Expr.evaluateValue code c.scope))
  | .function name =>
    let f ← ExceptT.mk (pure (Functions.find fs.derivations .derivation name))
    ExceptT.mk (pure (some <$> f c))
  | .http _ _ | .asyncFunction _ => return none

end Derivation

/-- What a run of derivations did. -/
structure DerivationRun where
  value : Value
  /-- The targets written, once for every time. -/
  applied : List String := []
  errors : Nat := 0
  iterations : Nat := 0
  /-- Whether the run was stopped while values still changed. -/
  maxReached : Bool := false
  /-- Whether a NaN was written. -/
  wroteNaN : Bool := false

namespace DerivationRun

/-- Applies one derivation, unless its value is there already. -/
def apply (fs : Functions) (external : Value) (r : DerivationRun) (d : Derivation) :
    Checking DerivationRun := do
  let computed : Except Fault (Option Value) ← ExceptT.lift (d.compute fs external r.value).run
  match computed with
  | .error _ =>
    Journal.report .derivationFailed
    return { r with errors := r.errors + 1 }
  | .ok none => return r
  | .ok (some computed) =>
    let keys ← ExceptT.mk (pure (Path.keys d.target))
    if (r.value.getPath keys).strictEq computed then return r
    let value ← ExceptT.mk (pure ((r.value.setPath keys computed).mapError Fault.ofPath))
    return { r with
      value
      applied := r.applied ++ [d.target]
      wroteNaN := r.wroteNaN || computed.hasNaN }

/-- Passes over the derivations until one changes nothing. -/
def passes (fs : Functions) (external : Value) (order : List Derivation) :
    (count : Nat) → DerivationRun → Checking DerivationRun
  | 0, r => return { r with maxReached := true }
  | count + 1, r => do
    let next ← order.foldlM (apply fs external) { r with iterations := r.iterations + 1 }
    if next.applied.length = r.applied.length then return next
    else passes fs external order count next

end DerivationRun

/-- Applies derivations to a value until nothing changes, or for as many passes as there may be. -/
def Derivation.run (fs : Functions) (external : Value) (maxPasses : Nat) (ds : List Derivation)
    (root : Value) : Checking DerivationRun := do
  let order ← ExceptT.mk (pure (order ds))
  if order.isEmpty then return { value := root }
  let r ← DerivationRun.passes fs external order maxPasses { value := root }
  if r.maxReached then Journal.report (.derivationsUnstable maxPasses r.applied)
  return r

end FormRules
