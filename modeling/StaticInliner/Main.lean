import StaticInliner.CommandLine.Command

/-!
The program: the dialogue for its arguments, carried out with real files.
-/
namespace StaticInliner

def Session.perform : Session α → IO α
  | .done value => return value
  | .print text next => do
    (← IO.getStdout).putStr text
    next.perform
  | .report text next => do
    (← IO.getStderr).putStr text
    next.perform
  | .isFile path next => do
    let found ← try
        let handle ← IO.FS.Handle.mk path .read
        discard <| handle.read 1
        pure true
      catch _ => pure false
    (next found).perform
  | .read path next => do
    let text ← try
        pure (some (← IO.FS.readFile path))
      catch _ => pure none
    (next text).perform
  | .write path text next => do
    let written ← try
        IO.FS.writeFile path text
        pure true
      catch _ => pure false
    (next written).perform

end StaticInliner

def main (args : List String) : IO UInt32 := do
  let directory ← IO.currentDir
  let code ← (StaticInliner.Session.ofArgs args directory.toString).perform
  return code.toUInt32
