import FormRules.Expr.Eval

/-!
# Computations that read signals

A computation is a tree: it is done, or it reads a signal and goes on with the value that it found. What
is read next may depend on what was read before, but nothing else can be done to the signals.
-/

namespace FormRules

/-- A computation over named signals. -/
inductive Reading (β : Type)
  | done (b : β)
  /-- Reads a signal, which counts as a source if the read is tracked. -/
  | read (name : String) (tracked : Bool) (next : Option Value → Reading β)

namespace Reading
variable {β γ : Type}

/-- Goes on with what a computation comes to. -/
def bind (r : Reading β) (f : β → Reading γ) : Reading γ :=
  match r with
  | .done b => f b
  | .read name tracked next => .read name tracked fun v => bind (next v) f

instance : Monad Reading where
  pure := done
  bind := bind

/-- What a computation comes to when signals have given values. -/
def eval (values : String → Option Value) : Reading β → β
  | .done b => b
  | .read name _ next => eval values (next (values name))

/-- The computation of an expression whose identifiers are signals; those of some names are read without
being tracked. -/
def ofExpression (source : Value) (untracked : List String) : Reading (Outcome Value) :=
  match Expr.parseValue source with
  | .error f => .done (.error f)
  | .ok node =>
    (Expr.evalWhole (m := Reading)
      (fun name => .read name (!untracked.contains name) .done) node).run

end Reading
end FormRules
