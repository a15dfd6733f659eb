import PegMachine.Text.Escaped
import PegMachine.Tree
/-!
  The dump of a tree: one line for each node, indented by twice its depth.

  A line shows the tag after a number sign, the span as a half-open interval and the value if there is
  one. Given the input, a leaf also shows the text that it covers, quoted.

  Correspondence (program ↔ here):
    `TreeFmt`, `AstNode.display` ↔ `display`
    `recur`                      ↔ `lines`, `label`
-/
namespace PegMachine.Tree

/-- What the dump shows of a single node, without indentation. -/
def label (input : Option Input) (t : Tree) : String :=
  "#" ++ t.tag.getD "" ++ " [" ++ toString t.start ++ ", " ++ toString t.stop ++ ")" ++
    (match t.value with
      | some value => " = " ++ value
      | none => "") ++
    (match if t.isLeaf then input.bind t.text? else none with
      | some text => " " ++ Text.quoted text
      | none => "")

def indentation (depth : Nat) : String := String.ofList (List.replicate (2 * depth) ' ')

mutual

/-- The lines of the dump of a tree whose root has the given depth. -/
def lines (input : Option Input) (depth : Nat) : Tree → List String
  | ⟨start, stop, tag, value, children⟩ =>
    (indentation depth ++ label input ⟨start, stop, tag, value, children⟩) ::
      linesList input (depth + 1) children

def linesList (input : Option Input) (depth : Nat) : List Tree → List String
  | [] => []
  | t :: ts => lines input depth t ++ linesList input depth ts

end

/-- The dump of a tree. Every line ends with a newline. -/
def display (input : Option Input) (t : Tree) : String :=
  String.join ((lines input 0 t).map (· ++ "\n"))

end PegMachine.Tree
