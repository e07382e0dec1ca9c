set_option autoImplicit false

/-! # Places in a source text

A `Position` counts what lies before a place: the bytes of its UTF-8 encoding, the line breaks, and
the characters since the last line break. All three start at zero, so a position is determined by
the characters read so far (`Position.after`). A `Span` is the range between two positions, its end
not included. -/

namespace BranchingTime

/-- A place in a text. The fields stand in the order in which positions are compared. -/
structure Position where
  offset : Nat
  line : Nat
  column : Nat
deriving DecidableEq, Repr, Inhabited

namespace Position

/-- The beginning of every text. -/
def start : Position := ⟨0, 0, 0⟩

/-- The place behind the character `c`. Only a line feed begins a new line. -/
def advance (p : Position) (c : Char) : Position :=
  if c = '\n' then ⟨p.offset + c.utf8Size, p.line + 1, 0⟩
  else ⟨p.offset + c.utf8Size, p.line, p.column + 1⟩

/-- The place behind the characters `cs`. -/
def after (p : Position) (cs : List Char) : Position := cs.foldl advance p

@[simp] theorem after_nil (p : Position) : p.after [] = p := rfl

@[simp] theorem after_cons (p : Position) (c : Char) (cs : List Char) :
    p.after (c :: cs) = (p.advance c).after cs := rfl

@[simp] theorem after_append (p : Position) (cs ds : List Char) :
    p.after (cs ++ ds) = (p.after cs).after ds :=
  List.foldl_append

/-- The order of places: by offset, then by line, then by column. -/
def compare (p q : Position) : Ordering :=
  (Ord.compare p.offset q.offset).then
    ((Ord.compare p.line q.line).then (Ord.compare p.column q.column))

instance : Ord Position := ⟨compare⟩

/-- The earlier of two places, as a whole. -/
def earlier (p q : Position) : Position := if (compare q p).isLT then q else p

/-- The later of two places, as a whole. -/
def later (p q : Position) : Position := if (compare p q).isLT then q else p

end Position

/-- The range of a text from `start` up to, but not including, `stop`. -/
structure Span where
  start : Position
  stop : Position
deriving DecidableEq, Repr, Inhabited

namespace Span

/-- The smallest range that covers both. -/
def join (a b : Span) : Span := ⟨a.start.earlier b.start, a.stop.later b.stop⟩

/-- The range covering those of two ranges that are known. -/
def join? : Option Span → Option Span → Option Span
  | some a, some b => some (a.join b)
  | some a, none => some a
  | none, b => b

/-- Line and column of both ends, such as `0:2-1:5`. -/
protected def toString (s : Span) : String :=
  toString s.start.line ++ ":" ++ toString s.start.column ++ "-" ++
    toString s.stop.line ++ ":" ++ toString s.stop.column

instance : ToString Span := ⟨Span.toString⟩

end Span

end BranchingTime
