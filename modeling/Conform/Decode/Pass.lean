import Conform.Decode.Options
/-!
# Passes

A pass runs under options and reports diagnostics. A failure ends it; so does an error in strict
mode, and with it all that was collected is gone.
-/

namespace Conform

/-- A pass that leads to a value and some diagnostics. -/
def Pass (α : Type) : Type := Options → Except Failure (α × List Diagnostic)

namespace Pass

variable {α β : Type}

/-- The pass that only gives a value. -/
def done (a : α) : Pass α := fun _ => .ok (a, [])

/-- One pass after another. -/
def andThen (p : Pass α) (f : α → Pass β) : Pass β := fun o =>
  match p o with
  | .error failure => .error failure
  | .ok (a, ds) =>
    match f a o with
    | .error failure => .error failure
    | .ok (b, more) => .ok (b, ds ++ more)

instance : Monad Pass where
  pure := done
  bind := andThen

/-- The options of the pass. -/
def options : Pass Options := fun o => .ok (o, [])

/-- A computation that reports nothing. -/
def ofExcept (e : Except Failure α) : Pass α := fun _ => e.map fun a => (a, [])

/-- Reports a diagnostic, as the mode wants it. -/
def report (d : Diagnostic) : Pass Unit := fun o => (o.mode.keep d).map fun ds => ((), ds)

/-- Reports a diagnostic if something is wrong. -/
def reportIf (wrong : Bool) (d : Diagnostic) : Pass Unit := if wrong then report d else done ()

/-- Reports diagnostics in order. -/
def reportAll : List Diagnostic → Pass Unit
  | [] => done ()
  | d :: rest => (report d).andThen fun _ => reportAll rest

@[simp] theorem pure_eq_done (a : α) : (pure a : Pass α) = done a := rfl

@[simp] theorem bind_eq_andThen (p : Pass α) (f : α → Pass β) : p >>= f = p.andThen f := rfl

end Pass

/-- Diagnostics that are collected under options. -/
structure Log where
  options : Options
  diagnostics : List Diagnostic
deriving DecidableEq, Repr

namespace Log

/-- Nothing was collected yet. -/
def start (o : Options) : Log := ⟨o, []⟩

/-- The log after one more diagnostic. -/
def add (l : Log) (d : Diagnostic) : Except Failure Log := do
  return { l with diagnostics := l.diagnostics ++ (← l.options.mode.keep d) }

def hasErrors (l : Log) : Bool := l.diagnostics.any Diagnostic.isError

def size (l : Log) : Nat := l.diagnostics.length

/-- The collected diagnostics, and the log without them. -/
def take (l : Log) : List Diagnostic × Log := (l.diagnostics, start l.options)

end Log

end Conform
