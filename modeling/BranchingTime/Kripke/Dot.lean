import BranchingTime.BitSet.Basic
import BranchingTime.Kripke.Model

set_option autoImplicit false

/-! # Models as DOT graphs

`Model.dot` draws a model in the DOT language: a node for each state, named for its index and
labelled with its id and its properties; an edge for each pair of a state and a successor; and into
each initial state an edge from an invisible point. Ids and properties stand in quoted labels, where
a backslash and a quotation mark are escaped, so no label ends early. -/

namespace BranchingTime

namespace Dot

/-- How a model is drawn. -/
structure Style where
  shape : String
  initialShape : String
  /-- The colour of the states that are highlighted. -/
  fill : String
  /-- Whether labels list the properties of their states. -/
  listProperties : Bool
deriving DecidableEq, Repr

/-- Circles, double ones for initial states, light blue where highlighted, and all properties. -/
def Style.plain : Style := ⟨"circle", "doublecircle", "lightblue", true⟩

/-- The text with `new` in the place of each `c`. -/
def replace (c : Char) (new text : String) : String :=
  String.ofList (text.toList.flatMap fun d => if d = c then new.toList else [d])

theorem toList_replace (c : Char) (new text : String) :
    (replace c new text).toList = text.toList.flatMap fun d => if d = c then new.toList else [d] :=
  String.toList_ofList

/-- A text as it stands in a quoted label. Backslashes are doubled before any is put in front of a
    quotation mark, so none of the latter is doubled. -/
def escape (text : String) : String :=
  replace '"' "\\\"" (replace '\\' "\\\\" text)

/-- The two replacements do not meet: each of the two characters gets one backslash. -/
theorem toList_escape (text : String) :
    (escape text).toList =
      text.toList.flatMap fun c => if c = '\\' ∨ c = '"' then ['\\', c] else [c] := by
  rw [escape, toList_replace, toList_replace, List.flatMap_assoc]
  congr 1
  funext c
  by_cases hbackslash : c = '\\'
  · subst hbackslash
    rfl
  · rw [if_neg hbackslash, List.flatMap_singleton]
    by_cases hmark : c = '"'
    · subst hmark
      rfl
    · rw [if_neg hmark, if_neg (not_or.2 ⟨hbackslash, hmark⟩)]

/-- The label of a state. The properties stand on a line of their own, between braces. -/
def label {ι : Type} [ToString ι] (style : Style) (s : State ι) : String :=
  let id := escape (toString s.id)
  if style.listProperties && !s.properties.isEmpty then
    id ++ "\\n\x7b" ++ String.intercalate ", " (s.properties.toList.map escape) ++ "\x7d"
  else id

/-- The line of the state with the index `i`. -/
def nodeLine {ι : Type} [ToString ι] (style : Style) (highlighted : Bool) (i : Nat)
    (s : State ι) : String :=
  "s" ++ toString i ++ " [label=\"" ++ label style s ++ "\"" ++
    (if s.isInitial then ", shape=" ++ style.initialShape else "") ++
    (if highlighted then ", style=filled, fillcolor=" ++ style.fill else "") ++
    "];\n"

/-- The points that lead into the initial states, all in the first rank, and their edges. -/
def entryLines (initials : List Nat) : String :=
  if initials.isEmpty then ""
  else
    "\x7b rank=source\n" ++
      String.join (initials.map fun i =>
        "init" ++ toString i ++ " [shape=point, style=invis];\n") ++
      "\x7d\n" ++
      String.join (initials.map fun i => "init" ++ toString i ++ " -> s" ++ toString i ++ ";\n")

/-- The edges from the state with the index `i`. -/
def edgeLines (i : Nat) (successors : List Nat) : String :=
  String.join (successors.map fun j => "s" ++ toString i ++ " -> s" ++ toString j ++ ";\n")

end Dot

/-- The model as a DOT graph, in which the states in `highlight` are filled. -/
def Model.dot {ι : Type} [DecidableEq ι] [Hashable ι] [ToString ι] (m : Model ι)
    (highlight : Option BitSet) (style : Dot.Style) : String :=
  "digraph \x7b\n" ++
    "node [shape=" ++ style.shape ++ "];\n" ++
    String.join (m.states.toList.zipIdx.map fun (s, i) =>
      Dot.nodeLine style (highlight.any (·.contains i)) i s) ++
    Dot.entryLines m.initials ++
    String.join (m.successors.toList.zipIdx.map fun (js, i) => Dot.edgeLines i js) ++
    "\x7d\n"

end BranchingTime
