import PegMachine.Bytecode.Load
import PegMachine.Context.Run
import PegMachine.Instruction.Printer
import PegMachine.Text.Quoted
import PegMachine.Text.Terminal
/-!
  The journal: what loading and running report about themselves.

  An event is a fact with a level. Loading reports what it found in the order in which it finds it; a load
  that fails reports what came before the failure. A run reports each instruction, each backtrack and how
  it ended.

  Correspondence (program ↔ here):
    what `load_into` logs           ↔ `loadEvents`
    what `step` and `backtrack` log ↔ `Event.ofMoment`, `noting`
    what `run_inner` logs           ↔ `endEvents`, `Context.runReported`
-/
namespace PegMachine

/-- How much an event matters, the most important level first. -/
inductive Level where
  | warn | info | debug | trace
  deriving DecidableEq, Repr

namespace Level

def name : Level → String
  | warn => "WARN"
  | info => "INFO"
  | debug => "DEBUG"
  | trace => "TRACE"

/-- Whether a journal of this level shows events of the other. -/
def shows (limit level : Level) : Bool := level.ctorIdx ≤ limit.ctorIdx

end Level

inductive Event where
  | unknownVersion (version : Version)
  | headerRead (header : Header)
  | rulesRead (rules : List Rule)
  | missingRule (name : String) (start : Nat)
  | startChosen (start : Nat)
  | trailingBytes (count : Nat)
  | programPrepared (size : Nat)
  | dispatched (instruction : Instruction) (pc pos : Nat)
  | backtracked (leaving entering alternative : Nat)
  | matched (start stop pooled : Nat)
  | failed (furthest : Nat)
  | died (pc : Nat) (error : RunError)
  deriving DecidableEq, Repr

namespace Event

def level : Event → Level
  | unknownVersion _ | missingRule _ _ | trailingBytes _ => .warn
  | headerRead _ => .info
  | rulesRead _ | startChosen _ | programPrepared _ | matched _ _ _ | failed _ | died _ _ => .debug
  | dispatched _ _ _ | backtracked _ _ _ => .trace

def versionText (v : Version) : String := s!"{v.major.toNat}.{v.minor.toNat}"

def ruleText (r : Rule) : String := s!"{r.name}@{r.start.toNat}"

def message : Event → String
  | unknownVersion v =>
    s!"bytecode version {versionText v} is not {versionText .current}; loading it anyway"
  | headerRead _ => "loaded bytecode header"
  | rulesRead rules => "rules: " ++ ", ".intercalate (rules.map ruleText)
  | missingRule name start => s!"no rule named {Text.quotedName name}; starting at {start}"
  | startChosen start => s!"starting at {start}"
  | trailingBytes count => s!"ignoring {count} trailing bytes after the last instruction"
  | programPrepared size => s!"prepared {size} instructions"
  | dispatched i _ _ => i.text
  | backtracked _ _ _ => "backtrack"
  | matched start stop pooled => s!"matched {start}..{stop} with {pooled} pooled nodes"
  | failed furthest => s!"no match; furthest was {furthest}"
  | died pc error => s!"run died at {pc}: {error.message}"

/-- The event's figures, each under its name. -/
def figures : Event → List (String × String)
  | headerRead h =>
    [("version", s!"({h.version.major.toNat}, {h.version.minor.toNat})"), ("file", h.fileName),
      ("instructions", toString h.instructionCount.toNat)]
  | dispatched _ pc pos => [("pc", toString pc), ("pos", toString pos)]
  | backtracked leaving entering alternative =>
    [("from", toString leaving), ("to", toString entering), ("alt", toString alternative)]
  | _ => []

/-- The event as a line of the journal with another text for its message: the level, the message and the
    figures. -/
def lineWith (e : Event) (message : String) : String :=
  " ".intercalate (e.level.name :: message :: e.figures.map fun (name, figure) => name ++ "=" ++ figure)

/-- The event as a line of the journal. -/
def line (e : Event) : String := e.lineWith e.message

/-- The event as a line for a terminal. The message is made harmless; the figures are shown as they are. -/
def terminalLine (e : Event) : String := e.lineWith (Text.harmless e.message)

end Event

/-! ## Loading -/

/-- What is reported once the header is read and its version let through. -/
def headerEvents (h : Header) : List Event :=
  (if h.version = .current then [] else [.unknownVersion h.version]) ++
    [.headerRead h, .rulesRead h.rules.toList]

/-- Which start was chosen, and whether the rule that was asked for is missing. -/
def startEvent (l : Loaded) : Option String → Event
  | some name => if (l.header.rule? name).isNone then .missingRule name l.startPoint else .startChosen l.startPoint
  | none => .startChosen l.startPoint

/-- What is reported of a load that succeeded, after the header. -/
def loadedEvents (l : Loaded) (rule? : Option String) : List Event :=
  startEvent l rule? ::
    (if l.trailing = 0 then [] else [.trailingBytes l.trailing]) ++ [.programPrepared l.program.size]

/-- What loading these bytes reports. -/
def loadEvents (options : LoadOptions) (bytes : Bytes) (rule? : Option String) : List Event :=
  match (readHeader options).run (.ofBytes bytes) with
  | .error _ _ => []
  | .ok header _ =>
    headerEvents header ++
      match load options bytes rule? with
      | .ok loaded => loadedEvents loaded rule?
      | .error _ => []

/-! ## Running -/

def Event.ofMoment : Moment → Event
  | .dispatched i pc pos => .dispatched i pc pos
  | .backtracked leaving entering alternative => .backtracked leaving entering alternative

/-- What is reported of the end of a run. Nothing is if its tree could not be made. -/
def endEvents (before : Context) (h : Halt) (outcome : Outcome) (after : Context) : List Event :=
  match h.result, outcome with
  | .error error, _ => [.died h.machine.pc error]
  | .ok _, .matched _ => [.matched before.startPos after.pos after.pool.size]
  | .ok _, .failed failure => [.failed failure.furthest]
  | .ok _, .stopped _ => []

/-- Watches with another watcher and notes the moments besides, if the level shows them. -/
def noting {σ : Type} (limit : Level) (watch : σ → Moment → σ) (seen : σ × Array Event) (moment : Moment) :
    σ × Array Event :=
  let event := Event.ofMoment moment
  (watch seen.1 moment, if limit.shows event.level then seen.2.push event else seen.2)

/-- What a run gives, what the watcher made of it, and what was reported. -/
structure Reported (σ : Type) where
  outcome : Outcome
  context : Context
  seen : σ
  events : List Event

/-- Runs the program over the context, watched and reported up to a level. -/
def Context.runReported {σ : Type} (c : Context) (program : Program) (limit : Level)
    (watch : σ → Moment → σ) (seen : σ) (fuel : Nat) : Option (Reported σ) :=
  if c.startPoint = 0 then some ⟨.stopped .noStartPoint, c, seen, []⟩
  else
    let run := (c.setting program).executeWatched (noting limit watch) fuel (seen, #[]) c.machine
    run.map fun ((seen, events), h) =>
      let (outcome, after) := c.conclude h
      ⟨outcome, after, seen, events.toList ++ endEvents c h outcome after⟩

end PegMachine
