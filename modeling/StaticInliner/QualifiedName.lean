/-!
Dotted names of static functions. A name is a nonempty list of nonempty
segments; both conditions are part of the type, so `root` and `last` need no
default. Segments built one by one may contain dots, segments read from text
never do.
-/
namespace StaticInliner

/-- The pieces of a text between its dots: one more piece than there are dots. -/
def splitDots : List Char → List (List Char)
  | [] => [[]]
  | c :: rest =>
    if c = '.' then [] :: splitDots rest
    else
      match splitDots rest with
      | [] => [[c]]
      | piece :: pieces => (c :: piece) :: pieces

/-- A text cut at its dots. -/
def pathPieces (text : String) : List String :=
  (splitDots text.toList).map String.ofList

structure QualifiedName where
  segments : List String
  ne_nil : segments ≠ []
  segment_ne : ∀ s ∈ segments, s ≠ ""
  deriving DecidableEq

namespace QualifiedName

/-- Why a text is not a qualified name. -/
inductive Fault where
  | empty
  | emptySegment (text : String)
  deriving DecidableEq, Repr

def Fault.message : Fault → String
  | .empty => "qualified name is empty"
  | .emptySegment text => "qualified name '" ++ text ++ "' has an empty segment"

def ofSegments? (segments : List String) : Option QualifiedName :=
  if h : segments ≠ [] ∧ ∀ s ∈ segments, s ≠ "" then some ⟨segments, h.1, h.2⟩ else none

def parse (text : String) : Except Fault QualifiedName :=
  if text = "" then .error .empty
  else
    match ofSegments? (pathPieces text) with
    | some name => .ok name
    | none => .error (.emptySegment text)

/-- The name extended by one more segment; an empty segment is refused. -/
def child? (name : QualifiedName) (segment : String) : Option QualifiedName :=
  ofSegments? (name.segments ++ [segment])

def root (name : QualifiedName) : String := name.segments.head name.ne_nil

def last (name : QualifiedName) : String := name.segments.getLast name.ne_nil

def length (name : QualifiedName) : Nat := name.segments.length

/-- More than one segment. -/
def isQualified (name : QualifiedName) : Bool := 1 < name.length

def text (name : QualifiedName) : String := ".".intercalate name.segments

/-- Segment by segment, each by code points, a proper beginning first. -/
def compare (a b : QualifiedName) : Ordering := Ord.compare a.segments b.segments

end QualifiedName

end StaticInliner
