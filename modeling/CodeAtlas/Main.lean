import CodeAtlas.Session

/-!
# The program

Reads the command line, the environment and files, and prints what a session answers.
-/

namespace CodeAtlas

def describeSystemError : IO.Error → String
  | .noFileOrDirectory _ code details
  | .inappropriateType _ code details
  | .permissionDenied _ code details
  | .invalidArgument _ code details
  | .resourceExhausted _ code details => s!"{details} (os error {code})"
  | e => toString e

def readFile (path : String) : IO (Except String String) := do
  try
    let bytes ← IO.FS.readBinFile path
    match String.fromUTF8? bytes with
    | some text => pure (.ok text)
    | none => pure (.error "stream did not contain valid UTF-8")
  catch e => pure (.error (describeSystemError e))

def runProgram (environment : Option String) (words : List String) : IO UInt32 := do
  match CommandLine.parse environment words with
  | .error .version =>
      IO.println Session.versionLine
      pure 0
  | .error .help =>
      Session.usageLines.forM IO.println
      pure 0
  | .error .misuse =>
      Session.usageLines.forM IO.eprintln
      pure 2
  | .ok invocation =>
      match ← (Session.run readFile invocation).run with
      | .ok text =>
          IO.print text
          pure 0
      | .error failure =>
          IO.eprintln ("Error: " ++ failure.dump)
          pure 1

end CodeAtlas

def main (words : List String) : IO UInt32 := do
  CodeAtlas.runProgram (← IO.getEnv "LECTERN_CONFIG") words
