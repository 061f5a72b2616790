import StaticInliner.Syntax.Tree

/-!
What has been evaluated in a statement before a given point. A block can run
ahead of the whole statement only if nothing evaluated before the call can tell
that it did.
-/
namespace StaticInliner

structure Progress where
  /-- Everything so far is unconditional, and neither writes nor reads what an
  inlined body could change. -/
  pure : Bool
  /-- A variable of the caller has been read. -/
  readLocal : Bool
  deriving DecidableEq, Repr

namespace Progress

/-- At the beginning of a statement. -/
def statement : Progress := ⟨true, false⟩

/-- In code that may run any number of times for one run of the statement. -/
def conditional : Progress := ⟨false, false⟩

def impure (progress : Progress) : Progress := { progress with pure := false }

def reading (progress : Progress) : Progress := { progress with readLocal := true }

/-- A block for a call with these arguments may run ahead of the statement. The
arguments run with it, so they must not write what was read before. -/
def allowsBlock (progress : Progress) (args : List Expr) : Bool :=
  progress.pure && !(progress.readLocal && Expr.anySideEffects args)

end Progress

end StaticInliner
