import SqlStyle.Command

/-! The command line: it looks up the files that the arguments name, runs the command and prints its
messages. -/
namespace SqlStyle.Command
set_option autoImplicit false

def lookUp (path : String) : IO Entry := do
  try
    let place ← IO.FS.realPath path
    if path.isEmpty || !(← place.pathExists) then return .missing
    else if ← place.isDir then return .directory
    else return .file (← IO.FS.readFile place)
  catch _ => return .missing

/-- Serve a request, and print what comes of it. The result is zero unless the command stopped. -/
def serveOnDisk (request : Request) : IO UInt32 := do
  let paths := request.files ++ request.settingsFile?.toList
  let entries ← paths.mapM fun path => do return (path, ← lookUp path)
  let outcome := serve (fun path => (entries.lookup path).getD .missing) request
  outcome.log.forM IO.eprintln
  match outcome.failure? with
  | some failure =>
    IO.eprintln failure.message
    return 1
  | none => return 0

end SqlStyle.Command

/-- Run the command on its arguments. The result is two if they cannot be read. -/
def main (arguments : List String) : IO UInt32 := do
  match SqlStyle.Command.readArguments {} arguments with
  | .error misuse =>
    IO.eprintln misuse.message
    return 2
  | .ok request => SqlStyle.Command.serveOnDisk request
