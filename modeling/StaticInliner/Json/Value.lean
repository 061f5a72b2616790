/-!
JSON values. Objects keep their members in the order written, repeated keys
included, so that a reader can refuse them. Whole numbers and doubles are
different values, as some fields take only whole numbers.

A text may have the form of a value and yet stand for none: a number too large,
a string with half of a surrogate pair, an object with such a key, or a value
nested too deep. It is kept as `unreadable`, since it may stand in a place that
nobody reads.
-/
namespace StaticInliner

inductive Json where
  | null
  | bool (value : Bool)
  | int (value : Int)
  | float (value : Float)
  | str (value : String)
  | arr (items : List Json)
  | obj (members : List (String × Json))
  | unreadable

namespace Json

instance : Inhabited Json := ⟨.null⟩

mutual

/-- How deep arrays and objects are nested in the value. -/
def depth : Json → Nat
  | .arr items => depthItems items + 1
  | .obj members => depthMembers members + 1
  | .null | .bool _ | .int _ | .float _ | .str _ | .unreadable => 0

def depthItems : List Json → Nat
  | [] => 0
  | item :: rest => max item.depth (depthItems rest)

def depthMembers : List (String × Json) → Nat
  | [] => 0
  | (_, item) :: rest => max item.depth (depthMembers rest)

end

/-- An object with one member, the name of a variant. -/
def variant (tag : String) (payload : Json) : Json := .obj [(tag, payload)]

def ofOption (f : α → Json) : Option α → Json
  | none => .null
  | some a => f a

def ofNat (n : Nat) : Json := .int n

def strings (texts : List String) : Json := .arr (texts.map .str)

end Json

end StaticInliner
