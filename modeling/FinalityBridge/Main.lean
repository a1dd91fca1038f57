import FinalityBridge.CommandLine.Report

/-!
# The command-line tool

Reads a command from the arguments, prints its report, and ends with 1 if the command fails and 2 if
there is no such command.
-/

open FinalityBridge.CommandLine

def main (arguments : List String) : IO UInt32 := do
  match respond arguments with
  | .error e =>
    IO.eprintln s!"error: {e.message}"
    return 2
  | .ok report =>
    IO.print report.output
    match report.failure? with
    | none => return 0
    | some failure =>
      IO.eprintln s!"Error: {failure.message}"
      return 1
