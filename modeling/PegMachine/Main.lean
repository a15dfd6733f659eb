import PegMachine.CommandLine
/-!
  The command line over the real file system. What is printed and in which order is decided in
  `PegMachine.CommandLine`; here it is only carried out.
-/
namespace PegMachine.CommandLine

/-- The words for an error of the file system. -/
def causeText : IO.Error → String
  | .noFileOrDirectory _ code _ => s!"No such file or directory (os error {code})"
  | .permissionDenied _ code _ => s!"Permission denied (os error {code})"
  | .inappropriateType _ code details => s!"{details} (os error {code})"
  | error => toString error

/-- The files of the file system. -/
def systemFiles : Files IO where
  read path := do
    match ← (IO.FS.readBinFile path).toBaseIO with
    | .ok bytes => pure (.ok bytes.toList)
    | .error error => pure (.error (causeText error))
  create path text := do
    match ← (IO.FS.writeFile path text).toBaseIO with
    | .ok () => pure (.ok ())
    | .error error => pure (.error (causeText error))

/-- Prints the output, and everything else beside it. -/
def Printout.print (p : Printout) (libraries : Libraries) : IO Unit := do
  IO.print p.output
  let report := match p.report with
    | some report => libraries.reportLines report
    | none => []
  for line in p.journal ++ report ++ p.notes do
    IO.eprintln line

end PegMachine.CommandLine

open PegMachine.CommandLine in
def main (arguments : List String) : IO UInt32 := do
  let printout ← run systemFiles arguments
  printout.print .usual
  pure (UInt32.ofNat printout.exitCode)
