import PegMachine.CommandLine.Arguments
import PegMachine.CommandLine.Location
import PegMachine.Profile.Report
import PegMachine.Tree.Printer
/-!
  The command line: runs a bytecode file over an input file.

  The files are reached through `Files`, and arguments, journal, complaints and reports are left to `Libraries`, so that
  what the command line does is the same over any of these. Its outcome is a `Printout`: the exit status, the output,
  the journal and what is said beside it. It is made when the run is over, however long that takes.

  Correspondence (program ↔ here):
    `main`                            ↔ `runWith`, `Invocation.execute`, `Invocation.perform`, `Invocation.printRun`
    `run`, `run_profiled` in `main`   ↔ `Invocation.attempt`, repeated with more steps until they suffice
    `context`, `with_context`         ↔ `Complaint`
    `with_max_level`                  ↔ `Invocation.shown`
-/
namespace PegMachine.CommandLine

/-- How files are read and created. An error is told in the store's own words. -/
structure Files (m : Type → Type) where
  read : String → m (Except String Bytes)
  create : String → String → m (Except String Unit)

/-- What went wrong, and what is to blame if it is something else. -/
structure Complaint where
  summary : String
  cause? : Option String

namespace Complaint

def reading (path cause : String) : Complaint := ⟨s!"couldn't read {path}", some cause⟩

def creating (path cause : String) : Complaint := ⟨s!"couldn't create {path}", some cause⟩

def loading (path : String) (error : LoadError) : Complaint := ⟨s!"couldn't load {path}", some error.message⟩

def running (error : RunError) : Complaint := ⟨"the machine stopped", some error.message⟩

/-- How a complaint is usually told. -/
def lines (c : Complaint) : List String :=
  ("Error: " ++ c.summary) ::
    match c.cause? with
    | none => []
    | some cause => ["", "Caused by:", "    " ++ cause]

end Complaint

/-- What the command line leaves to others: how arguments are read, how an event of the journal is written, how a
    complaint is told, and how a report is drawn. -/
structure Libraries where
  options : OptionReader
  eventLine : Event → String
  complaintLines : Complaint → List String
  reportLines : FailureReport → List String

/-- The journal is written for a terminal. -/
def Libraries.usual : Libraries := ⟨.usual, Event.terminalLine, Complaint.lines, FailureReport.lines⟩

structure Printout where
  /-- Whether the exit status is that of success. -/
  succeeded : Bool
  output : String
  /-- The lines of the journal that are shown. -/
  journal : List String
  report : Option FailureReport
  /-- The profile, and then what went wrong. -/
  notes : List String
  deriving Inhabited

namespace Printout

def ofOutput (output : String) : Printout := ⟨true, output, [], none, []⟩

def complain (p : Printout) (libraries : Libraries) (c : Complaint) : Printout :=
  { p with succeeded := false, notes := p.notes ++ libraries.complaintLines c }

def ofComplaint (libraries : Libraries) (c : Complaint) : Printout := (ofOutput "").complain libraries c

def exitCode (p : Printout) : Nat := if p.succeeded then 0 else 1

end Printout

/-- What a run comes to: what is printed, and the pairs of the profile if it came to an end of its own. -/
structure Performance where
  printout : Printout
  csv? : Option String
  deriving Inhabited

namespace Invocation

def config (i : Invocation) : Config where
  maxStackLength := i.stack?.getD ({} : Config).maxStackLength
  maxSymbols := i.symbols?.getD ({} : Config).maxSymbols

def loadOptions (i : Invocation) : LoadOptions := ⟨i.strictVersion, i.config⟩

/-- The events that the verbosity shows, as lines of the journal. -/
def shown (i : Invocation) (libraries : Libraries) (events : List Event) : List String :=
  (events.filter fun e => i.verbosity.shows e.level).map libraries.eventLine

/-- The context in which what was loaded is run. -/
def context (i : Invocation) (loaded : Loaded) (input : Bytes) : Context :=
  (Context.ofLoaded i.loadOptions loaded).setInput input.toArray

/-- What is printed of a match. -/
def matchText (i : Invocation) (input : Bytes) (tree : Tree) : String :=
  if i.onlyMatch then s!"match: {tree.stop} of {input.length} bytes\n" else tree.display (some input.toArray)

/-- What is printed of a run. -/
def printRun (i : Invocation) (libraries : Libraries) (input : Bytes) (journal : List String) (r : Reported Profile) :
    Printout :=
  let notes := if i.profile then r.seen.lines else []
  match r.outcome with
  | .matched tree => ⟨true, i.matchText input tree, journal, none, notes⟩
  | .failed failure => ⟨false, "", journal, some (.make i.input input failure), notes⟩
  | .stopped error => Printout.complain ⟨true, "", journal, none, []⟩ libraries (.running error)

/-- Runs the program over the input for at most so many steps. -/
def perform? (i : Invocation) (libraries : Libraries) (steps : Nat) (bytecode input : Bytes) : Option Performance :=
  let loadJournal := loadEvents i.loadOptions bytecode i.start?
  match load i.loadOptions bytecode i.start? with
  | .error error =>
    let journal := i.shown libraries loadJournal
    some ⟨Printout.complain ⟨true, "", journal, none, []⟩ libraries (.loading i.program error), none⟩
  | .ok loaded =>
    let run? := (i.context loaded input).runReported loaded.program i.verbosity Profile.watch .empty steps
    run?.map fun r =>
      let printout := i.printRun libraries input (i.shown libraries (loadJournal ++ r.events)) r
      match r.outcome with
      | .stopped _ => ⟨printout, none⟩
      | _ => ⟨printout, some r.seen.csv⟩

/-- Tries so many steps. If they do not suffice it says with how many to try again. -/
def attempt (i : Invocation) (libraries : Libraries) (bytecode input : Bytes) (steps : Nat) : Id (Nat ⊕ Performance) :=
  match i.perform? libraries steps bytecode input with
  | some performance => .inr performance
  | none => .inl (2 * steps + 1)

/-- Runs the program over the input, however many steps it takes. A program can loop for ever, and then so does this. -/
def perform (i : Invocation) (libraries : Libraries) (bytecode input : Bytes) : Performance :=
  repeatM (i.attempt libraries bytecode input) Context.patience

variable {m : Type → Type} [Monad m]

/-- Reads both files, runs, and writes the pairs of the profile if they are wanted. -/
def execute (i : Invocation) (libraries : Libraries) (files : Files m) : m Printout := do
  match ← files.read i.program with
  | .error cause => pure (.ofComplaint libraries (.reading i.program cause))
  | .ok bytecode =>
    match ← files.read i.input with
    | .error cause => pure (.ofComplaint libraries (.reading i.input cause))
    | .ok input =>
      let performance := i.perform libraries bytecode input
      match i.csv?, performance.csv? with
      | some path, some csv =>
        match ← files.create path csv with
        | .error cause => pure (performance.printout.complain libraries (.creating path cause))
        | .ok () => pure performance.printout
      | _, _ => pure performance.printout

end Invocation

variable {m : Type → Type} [Monad m]

/-- Does what the arguments say. -/
def runWith (libraries : Libraries) (files : Files m) (arguments : List String) : m Printout :=
  match Invocation.ofArguments? libraries.options arguments with
  | .error cause => pure (.ofComplaint libraries ⟨cause, none⟩)
  | .ok none => pure (.ofOutput help)
  | .ok (some invocation) => invocation.execute libraries files

/-- Does what the arguments say in the usual way. -/
def run (files : Files m) (arguments : List String) : m Printout := runWith .usual files arguments

end PegMachine.CommandLine
