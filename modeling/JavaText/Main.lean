import JavaText.Command.Run

/-!
# The command

Runs of the command work on the files of the system.
-/

namespace JavaText

/-- Whether an action ended without an error. -/
def succeeds (act : IO Unit) : IO Bool := do
  try
    act
    return true
  catch _ => return false

def systemHost : Host IO where
  read path := do
    try return String.fromUTF8? (← IO.FS.readBinFile path)
    catch _ => return none
  makeDirectory path := succeeds (IO.FS.createDirAll path)
  write path text := succeeds (IO.FS.writeFile path text)
  print text := do
    let out ← IO.getStdout
    out.putStr text
    out.flush
  report e := IO.eprintln (e.code ++ ": " ++ e.message)

end JavaText

def main (args : List String) : IO UInt32 :=
  return (← JavaText.systemHost.run args).code
