import PegMachine.Error
import PegMachine.Text.Utf8
/-!
  What is said about an input that did not match.

  A report points at characters of the input, which is decoded lossily. The character that a byte belongs to is found
  by decoding what stands before the byte. How a report is drawn is left open; usually it begins with the message and
  the line and the column of the character that it points at, both counted from one. Every line is as long as its
  characters and one more for its end, the last one too even if nothing ends it.

  Correspondence (program ↔ here):
    `report_failure`                  ↔ `FailureReport.make`
    `to_char`, `span` inside it       ↔ `charIndex`, `Label.ofIndex`
-/
namespace PegMachine.CommandLine

/-! ## The report -/

/-- How many characters the input has before a byte. -/
def charIndex (input : Bytes) (pos : Nat) : Nat := (Text.decodeLossyChars (input.take pos)).length

/-- Something that is said about the characters from `start` up to `stop`. -/
structure Label where
  start : Nat
  stop : Nat
  message : String
  deriving DecidableEq, Repr

/-- A label at one character of so many, or at their end. -/
def Label.ofIndex (size index : Nat) (message : String) : Label := ⟨min index size, min (index + 1) size, message⟩

structure FailureReport where
  file : String
  source : List Char
  message : String
  /-- The index of the character that the report points at. -/
  index : Nat
  labels : List Label
  deriving DecidableEq, Repr

/-- Points at where the run gave up, and at how far it got before that if this is further on. -/
def FailureReport.make (file : String) (input : Bytes) (failure : ParseFailure) : FailureReport :=
  let source := Text.decodeLossyChars input
  let index := charIndex input failure.pos
  let furthest := charIndex input failure.furthest
  let here := Label.ofIndex source.length index "no alternative matched here"
  let there := Label.ofIndex source.length furthest "but some alternative got this far"
  ⟨file, source, failure.message, index, if index < furthest then [here, there] else [here]⟩

/-! ## How it is usually drawn -/

structure Location where
  line : Nat
  column : Nat
  deriving DecidableEq, Repr

/-- The lengths of the lines, after one more character in front. -/
def extendLine (c : Char) (lengths : List Nat) : List Nat :=
  if c = '\n' then 1 :: lengths
  else
    match lengths with
    | [] => [2]
    | n :: ns => (n + 1) :: ns

/-- The lengths of the lines of a text. No line follows a line end at the very end. -/
def lineLengths (chars : List Char) : List Nat := chars.foldr extendLine []

/-- Finds a character by its index in lines of the given lengths, the first of which has the number
    `line`. What lies behind the last line counts as a part of it. -/
def locateIn : (lengths : List Nat) → (index line : Nat) → Location
  | n :: m :: ns, index, line =>
    if index < n then ⟨line, index + 1⟩ else locateIn (m :: ns) (index - n) (line + 1)
  | _, index, line => ⟨line, index + 1⟩

namespace FailureReport

def location (r : FailureReport) : Location := locateIn (lineLengths r.source) r.index 1

/-- The lines that the drawing begins with. -/
def lines (r : FailureReport) : List String :=
  ["Error: " ++ r.message, s!",-[{r.file}:{r.location.line}:{r.location.column}]"]

end FailureReport

end PegMachine.CommandLine
