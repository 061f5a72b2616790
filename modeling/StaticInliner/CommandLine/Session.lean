/-!
Dialogues between a command and its surroundings: what it prints and reports, and
which files it asks for. A dialogue is data, so that it can be carried out with
real files as well as on a folder held in memory.
-/
namespace StaticInliner

/-- A dialogue that ends in a value. -/
inductive Session (α : Type) where
  | done (value : α)
  | print (text : String) (next : Session α)
  | report (text : String) (next : Session α)
  | isFile (path : String) (next : Bool → Session α)
  /-- The text of a file, unless it cannot be read. -/
  | read (path : String) (next : Option String → Session α)
  /-- Replace a file; the answer tells whether that was possible. -/
  | write (path text : String) (next : Bool → Session α)

namespace Session

def bind : Session α → (α → Session β) → Session β
  | .done value, f => f value
  | .print text next, f => .print text (next.bind f)
  | .report text next, f => .report text (next.bind f)
  | .isFile path next, f => .isFile path fun answer => (next answer).bind f
  | .read path next, f => .read path fun answer => (next answer).bind f
  | .write path text next, f => .write path text fun answer => (next answer).bind f

instance : Monad Session where
  pure := .done
  bind := bind

end Session

/-- The files of a directory, by their paths in it. -/
structure Folder where
  path : String
  files : List (String × String)
  deriving DecidableEq, Repr

namespace Folder

/-- The parts of a path without empty ones and references to the same directory. -/
def parts (path : String) : List String :=
  (path.splitOn "/").filter fun part => part ≠ "" ∧ part ≠ "."

/-- Whether files lie below a directory. -/
def hasDirectory (folder : Folder) (directory : String) : Bool :=
  folder.files.any (·.1.startsWith (directory ++ "/"))

/-- Where the parts of a path lead from a place in the folder. Two dots lead out
of a directory, if it exists, but not out of the folder. -/
def follow? (folder : Folder) (place : List String) : List String → Option (List String)
  | [] => some place
  | part :: rest =>
    if part ≠ ".." then folder.follow? (place ++ [part]) rest
    else if folder.hasDirectory ("/".intercalate place) then folder.follow? place.dropLast rest
    else none

/-- The name in the folder that a path stands for. Absolute paths lead into the
folder only if they begin with its own. -/
def name? (folder : Folder) (path : String) : Option String := do
  let own := folder.path ++ "/"
  let inside ← if path.startsWith own then some (path.drop own.length).toString
    else if path.startsWith "/" then none
    else some path
  let place ← folder.follow? [] (parts inside)
  if place = [] ∨ inside.endsWith "/" ∨ inside.endsWith "/." then none
  else return "/".intercalate place

def read? (folder : Folder) (path : String) : Option String :=
  (folder.name? path).bind fun name => folder.files.lookup name

/-- Replace or add a file. Its directory has to exist, and it must not be one. -/
def write? (folder : Folder) (path text : String) : Option Folder := do
  let name ← folder.name? path
  let directory := "/".intercalate (parts name).dropLast
  if folder.hasDirectory name || (directory ≠ "" && !folder.hasDirectory directory) then none
  else return { folder with files := folder.files.filter (·.1 ≠ name) ++ [(name, text)] }

end Folder

/-- What a dialogue leaves behind. -/
structure Transcript (α : Type) where
  value : α
  printed : String
  reported : String
  folder : Folder

/-- Carry out a dialogue in a folder, after what has been printed and reported. -/
def Session.runIn (printed reported : String) (folder : Folder) : Session α → Transcript α
  | .done value => ⟨value, printed, reported, folder⟩
  | .print text next => next.runIn (printed ++ text) reported folder
  | .report text next => next.runIn printed (reported ++ text) folder
  | .isFile path next => (next (folder.read? path).isSome).runIn printed reported folder
  | .read path next => (next (folder.read? path)).runIn printed reported folder
  | .write path text next =>
    match folder.write? path text with
    | some folder => (next true).runIn printed reported folder
    | none => (next false).runIn printed reported folder

end StaticInliner
