import PegMachine.Error
import PegMachine.Instruction
import PegMachine.Machine.Stacks
/-!
  The machine: one instruction at a time.

  A `Setting` is what stays fixed during a run: the program, the input and the capacities. A `Machine`
  is what changes. `perform` says what one instruction does to the machine and where it wants to go on
  (`Effect`), and `dispatch` hands the instruction to the routine of its opcode; `settle` then moves the
  program counter, backtracks if the instruction failed, and keeps the furthest cursor. `execute` repeats
  this until the run is over. An instruction that stops the run leaves the machine as it found it.

  Correspondence (program ↔ here):
    `Config`, `Machine`          ↔ `Config`, `Setting` with `Machine`
    `Step`                       ↔ `Effect`
    `peek`, `rest`, `advance`    ↔ `next?`, `seesLiteral`, `advance`
    `op_exit` to `op_scope_end`  ↔ the cases of `perform`
    `close_node`                 ↔ `closeFault?`, `closeNode`, `foldFrom`
    `DISPATCH`, `dispatch_table` ↔ `Opcode.routine`, `handle`, `dispatch`
    `step`, `backtrack`          ↔ `step`, `Effect.settle`, `Machine.backtrack`
    `execute`                    ↔ `execute`
-/
namespace PegMachine

/-- The capacities: of the backtrack and call stacks and of open nodes, and of the symbol table with its
    scope markers. -/
structure Config where
  maxStackLength : Nat := 1024
  maxSymbols : Nat := 256
  deriving DecidableEq, Repr

structure Setting where
  program : Program
  input : Input
  config : Config
  deriving DecidableEq, Repr

structure Machine where
  pc : Nat
  /-- The cursor into the input. -/
  pos : Nat
  /-- The furthest the cursor has been. -/
  furthest : Nat
  work : Stacks
  pool : Pool
  deriving DecidableEq, Repr

/-- Where an instruction wants to go on, with the machine that it leaves. -/
inductive Effect where
  | next (m : Machine)
  | goto (target : Nat) (m : Machine)
  | fail (m : Machine)
  | accept (m : Machine)
  | stop (error : RunError) (m : Machine)

namespace Machine

/-- The machine at the start of a run: empty stacks, and a cursor that has been nowhere else. -/
def start (pc pos : Nat) (pool : Pool) : Machine := ⟨pc, pos, pos, .empty, pool⟩

def advance (m : Machine) (count : Nat) : Machine := { m with pos := m.pos + count }

/-- The frame that would bring the machine back to here and resume at `alternative`. -/
def frame (m : Machine) (alternative : Nat) : Frame := m.work.frame alternative m.pos

def pushFrame (m : Machine) (f : Frame) : Machine :=
  { m with work.backtrack := m.work.backtrack.push f }

def popFrame (m : Machine) : Machine := { m with work.backtrack := m.work.backtrack.pop }

/-- Replaces the top frame by one that brings the machine back to here and resumes where the old one did. -/
def refreshFrame (m : Machine) (old : Frame) : Machine :=
  let fresh := m.frame old.alternative
  m.popFrame.pushFrame fresh

/-- Puts back the cursor and the lengths of a frame. -/
def restore (m : Machine) (f : Frame) : Machine :=
  { m with pos := f.pos, work := m.work.restore f }

def pushCall (m : Machine) (back : Nat) : Machine :=
  { m with work.calls := m.work.calls.push back }

def popCall (m : Machine) : Machine := { m with work.calls := m.work.calls.pop }

def pushEntry (m : Machine) (entry : LogEntry) : Machine :=
  { m with work.log := m.work.log.push entry }

def openNode (m : Machine) : Machine :=
  { m with work.log := m.work.log.openNode m.pos }

def pushMark (m : Machine) : Machine :=
  { m with work.marks := m.work.marks.push m.pos }

def pushSymbol (m : Machine) (entry : SymbolEntry) : Machine :=
  { m with work.symbols := m.work.symbols.push entry }

def useMark (m : Machine) : Machine := { m with work := m.work.useMark }

/-- Puts the log entries from `place` on into one pooled node that ends at the cursor. -/
def foldFrom (m : Machine) (place start : Nat) : Machine :=
  let inner := m.work.log.entriesFrom (place + 1)
  let id := m.pool.size
  { m with
    work.log := (m.work.log.truncate place).push (.node id)
    pool := m.pool.push start m.pos (LogEntry.lastTag inner) (LogEntry.lastValue inner) (LogEntry.nodes inner) }

/-- Why the innermost open node cannot be closed, if it cannot. -/
def closeFault? (m : Machine) : Option RunError :=
  match m.work.log.innermost? with
  | none => some (.unbalancedNode m.pc)
  | some _ => if m.pool.isFull then some (.poolExhausted m.pool.size) else none

/-- Closes the innermost open node, if there is one. -/
def closeNode (m : Machine) : Machine :=
  match m.work.log.innermost? with
  | some (place, start) => m.foldFrom place start
  | none => m

/-- Keeps the furthest cursor up to date. -/
def noteCursor (m : Machine) : Machine := { m with furthest := max m.furthest m.pos }

end Machine

/-! ## What an instruction asks of the input -/

namespace Setting

/-- The byte at the cursor, unless the input ends there. -/
def next? (s : Setting) (m : Machine) : Option UInt8 := s.input[m.pos]?

/-- Whether there is a byte at the cursor and it has the property. -/
def sees (s : Setting) (m : Machine) (p : UInt8 → Bool) : Bool := (s.next? m).any p

/-- Whether the literal comes next. -/
def seesLiteral (s : Setting) (m : Machine) (literal : Bytes) : Bool := s.input.hasAt m.pos literal

/-- How many bytes from the cursor on are in the set. -/
def runLength (s : Setting) (m : Machine) (set : CharSet) : Nat :=
  s.input.skipWhile set.contains m.pos - m.pos

/-- The text from the last mark to the cursor. -/
def markedText (s : Setting) (m : Machine) (mark : Nat) : Bytes := (s.input.slice? mark m.pos).getD []

end Setting

/-! ## What an instruction does -/

/-- Consumes `count` bytes if the test succeeded, and fails otherwise. -/
def Machine.take (m : Machine) (test : Bool) (count : Nat) : Effect :=
  if test then .next (m.advance count) else .fail m

/-- Consumes `count` bytes if the test succeeded, and goes on in any case. -/
def Machine.skip (m : Machine) (test : Bool) (count : Nat) : Effect :=
  if test then .next (m.advance count) else .next m

/-- Fails if the test succeeded. -/
def Machine.refuse (m : Machine) (test : Bool) : Effect := if test then .fail m else .next m

/-- Consumes a text if there is one, and fails otherwise. -/
def Machine.takeText (m : Machine) : Option Bytes → Effect
  | some text => .next (m.advance text.length)
  | none => .fail m

namespace Setting

/-- The text that `is` consumes: the latest of its table, if it comes next. -/
def latestText? (s : Setting) (m : Machine) (table : String) : Option Bytes :=
  (SymbolEntry.bindings m.work.symbols table).head?.filter (s.seesLiteral m)

/-- The text that `isa` consumes: the latest of its table that comes next. -/
def anyText? (s : Setting) (m : Machine) (table : String) : Option Bytes :=
  (SymbolEntry.bindings m.work.symbols table).find? (s.seesLiteral m)

def perform (s : Setting) (i : Instruction) (m : Machine) : Effect :=
  match i with
  | .exit => .accept m
  | .jump target => .goto target m
  | .call target =>
    if m.work.calls.size < s.config.maxStackLength then .goto target (m.pushCall (m.pc + 1))
    else .stop (.stackOverflow .call s.config.maxStackLength) m
  | .ret =>
    match m.work.calls.back? with
    | some back => .goto back m.popCall
    | none => .accept m
  | .choice alternative =>
    if m.work.backtrack.size < s.config.maxStackLength then .next (m.pushFrame (m.frame alternative))
    else .stop (.stackOverflow .backtrack s.config.maxStackLength) m
  | .commit target =>
    match m.work.backtrack.back? with
    | some _ => .goto target m.popFrame
    | none => .stop (.stackUnderflow .backtrack m.pc) m
  | .partialCommit target =>
    match m.work.backtrack.back? with
    | some f => .goto target (m.refreshFrame f)
    | none => .stop (.stackUnderflow .backtrack m.pc) m
  | .backCommit target =>
    match m.work.backtrack.back? with
    | some f => .goto target (m.popFrame.restore f)
    | none => .stop (.stackUnderflow .backtrack m.pc) m
  | .fail => .fail m
  | .failTwice =>
    match m.work.backtrack.back? with
    | some _ => .fail m.popFrame
    | none => .stop (.stackUnderflow .backtrack m.pc) m
  | .any => m.take (s.sees m fun _ => true) 1
  | .charRange lo hi => m.take (s.sees m (ByteRange.mk lo hi).contains) 1
  | .charSet set => m.take (s.sees m set.contains) 1
  | .string literal => m.take (s.seesLiteral m literal) literal.length
  | .notCharSet set => m.refuse (s.sees m set.contains)
  | .notString literal => m.refuse (s.seesLiteral m literal)
  | .optionalCharSet set => m.skip (s.sees m set.contains) 1
  | .optionalString literal => m.skip (s.seesLiteral m literal) literal.length
  | .zeroMoreCharSet set => .next (m.advance (s.runLength m set))
  | .mappedChoice table =>
    match (s.next? m).bind table.get? with
    | some target => .goto target.toNat m
    | none => .fail m
  | .nodeOpen =>
    if m.work.log.depth < s.config.maxStackLength then .next m.openNode
    else .stop (.stackOverflow .ast s.config.maxStackLength) m
  | .nodeClose =>
    match m.closeFault? with
    | some error => .stop error m
    | none => .next m.closeNode
  | .tag label => .next (m.pushEntry (.tag label))
  | .value label => .next (m.pushEntry (.value label))
  | .mark => .next m.pushMark
  | .define table =>
    match m.work.marks.back? with
    | none => .stop (.missingMark m.pc) m
    | some mark =>
      if m.work.symbols.size < s.config.maxSymbols then
        .next (m.useMark.pushSymbol (.binding table (s.markedText m mark)))
      else .stop (.stackOverflow .symbol s.config.maxSymbols) m
  | .is table => m.takeText (s.latestText? m table)
  | .isa table => m.takeText (s.anyText? m table)
  | .scopeBegin =>
    if m.work.symbols.size < s.config.maxSymbols then .next (m.pushSymbol .scope)
    else .stop (.stackOverflow .symbol s.config.maxSymbols) m
  | .scopeEnd =>
    match SymbolEntry.lastScope? m.work.symbols with
    | some place => .next { m with work.symbols := m.work.symbols.shrink place }
    | none => .stop (.stackUnderflow .symbol m.pc) m

end Setting

/-! ## Routines

Each opcode has a routine of its own, which carries out the instructions of this opcode and of no other. An
instruction is bound to the routine that stands in the table at the place of its opcode.
-/

/-- The opcode whose routine stands at this opcode's place in the table of routines. -/
def Opcode.routine (op : Opcode) : Opcode := all.get ⟨op.ctorIdx, by cases op <;> decide⟩

theorem Opcode.routine_eq (op : Opcode) : op.routine = op := by cases op <;> rfl

namespace Setting

/-- What the routine of an opcode does with an instruction. It stops the run at one of another opcode. -/
def handle (s : Setting) (handler : Opcode) (i : Instruction) (m : Machine) : Effect :=
  if i.opcode = handler then s.perform i m else .stop (.handlerMismatch m.pc handler) m

/-- What the routine does that the instruction is bound to. -/
def dispatch (s : Setting) (i : Instruction) (m : Machine) : Effect := s.handle i.opcode.routine i m

/-- Every instruction is bound to the routine that can carry it out. -/
@[simp] theorem dispatch_eq (s : Setting) (i : Instruction) (m : Machine) : s.dispatch i m = s.perform i m := by
  rw [dispatch, Opcode.routine_eq, handle, if_pos rfl]

end Setting

/-! ## Steps and runs -/

/-- How things stand after a step. -/
inductive Transition where
  | running (m : Machine)
  | halted (matched : Bool) (m : Machine)
  | stopped (error : RunError) (m : Machine)

/-- Pops a frame and resumes there; without a frame the run is over and has not matched. -/
def Machine.backtrack (m : Machine) : Transition :=
  match m.work.backtrack.back? with
  | some f => .running { m.popFrame.restore f with pc := f.alternative }
  | none => .halted false m

/-- Carries out what an instruction wants. -/
def Effect.settle : Effect → Transition
  | next m => .running { m.noteCursor with pc := m.pc + 1 }
  | goto target m => .running { m.noteCursor with pc := target }
  | fail m => m.noteCursor.backtrack
  | accept m => .halted true m.noteCursor
  | stop error m => .stopped error m

namespace Setting

def step (s : Setting) (m : Machine) : Transition :=
  match s.program.at? m.pc with
  | none => .stopped (.pcOutOfBounds m.pc s.program.size) m
  | some i => (s.dispatch i m).settle

end Setting

/-- The end of a run: the machine as it was left, and whether the input matched or what stopped the run. -/
structure Halt where
  machine : Machine
  result : Except RunError Bool

namespace Setting

/-- Steps until the run is over, at most `fuel` times; `none` if it is not over by then. -/
def execute (s : Setting) : (fuel : Nat) → Machine → Option Halt
  | 0, _ => none
  | fuel + 1, m =>
    match s.step m with
    | .running m => s.execute fuel m
    | .halted matched m => some ⟨m, .ok matched⟩
    | .stopped error m => some ⟨m, .error error⟩

end Setting

end PegMachine
