import ByteRegex.Cli.Program

/-! # The command line

Performs the script of an invocation on the streams of the process. -/

namespace ByteRegex.Cli

def Channel.stream : Channel → IO IO.FS.Stream
  | .output => IO.getStdout
  | .errors => IO.getStderr

/-- Name what was being done when an action fails. -/
def during {α : Type} (what : String) (action : IO α) : IO α :=
  try action catch e => throw (IO.userError (what ++ ": " ++ toString e))

def Script.perform : Script → IO Status
  | .exit status => pure status
  | .write target piece next => do
      (← target.stream).write ⟨piece.toArray⟩
      next.perform
  | .flush next => do
      during "writing matches" (do (← IO.getStdout).flush)
      next.perform
  | .read next => do
      let input ← during "reading standard input" (do (← IO.getStdin).readBinToEnd)
      (next input.toList).perform

/-- Perform an invocation and give its exit code. A failure is reported on the error stream. -/
def invoke (args : List String) : IO UInt32 := do
  try
    let status ← (Script.ofArguments args).perform
    pure status.code.toUInt32
  catch e =>
    IO.eprintln (toString e)
    pure Status.trouble.code.toUInt32

end ByteRegex.Cli

def main (args : List String) : IO UInt32 := ByteRegex.Cli.invoke args
