/-!
Ids of source units and function literals. They are 32 bits wide: the id after
the greatest one is 0.
-/
namespace StaticInliner

/-- A counter of ids, by the one it gives out next. -/
structure IdCounter where
  next : UInt32
  deriving DecidableEq, Repr

namespace IdCounter

def ofNat (id : Nat) : IdCounter := ⟨.ofNat id⟩

/-- The next id, and the counter behind it. -/
def draw (counter : IdCounter) : Nat × IdCounter := (counter.next.toNat, ⟨counter.next + 1⟩)

end IdCounter

end StaticInliner
