import IndexedGrammar.CommandLine.Program

/-!
# The command line

Reads the files of a call and the standard input, runs the program, and writes its output. Sentences
are answered as they come in.
-/

namespace IndexedGrammar.CommandLine

/-- Why the system could not read a file, by its number for the error. -/
def fileFaultOf : IO.Error → FileFault
  | .noFileOrDirectory .. => .notFound
  | .inappropriateType _ 20 _ => .notADirectory
  | .invalidArgument _ 36 _ => .nameTooLong
  | _ => .isADirectory

/-- Reads a file. -/
def fetch (path : String) : IO (String × Except FileFault String) := do
  try
    return (path, .ok (← IO.FS.readFile path))
  catch e =>
    return (path, .error (fileFaultOf e))

/-- The files that were read; all others are missing. -/
def filesOf (fetched : List (String × Except FileFault String)) : Files :=
  fun path => (fetched.lookup path).getD (.error .notFound)

/-- Answers the lines of the standard input until it ends. -/
partial def converse (loaded : Loaded) (showChart : Bool) (input : IO.FS.Stream) : IO Unit := do
  IO.print prompt
  (← IO.getStdout).flush
  let line ← input.getLine
  if line.isEmpty then return
  let (out, err) := answerLine loaded showChart line
  IO.print out
  IO.eprint err
  converse loaded showChart input

/-- Writes the output of a call. -/
def write (output : Output) : IO UInt32 := do
  IO.print output.stdout
  IO.eprint output.stderr
  return output.exitCode.toUInt32

end IndexedGrammar.CommandLine

open IndexedGrammar.CommandLine in
/-- Runs the program on its arguments. -/
def main (arguments : List String) : IO UInt32 := do
  match readArguments arguments with
  | .error stop => write (stopOutput stop)
  | .ok call =>
    let files := filesOf (← call.files.mapM fetch)
    match load files call, call.command with
    | .ok loaded, .parse showChart =>
      converse loaded showChart (← IO.getStdin)
      return 0
    | .ok loaded, command => write (outputOf (runCommand files loaded "" command))
    | .error report, _ => write (outputOf (.error report))
