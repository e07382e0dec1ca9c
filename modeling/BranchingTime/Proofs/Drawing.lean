import BranchingTime.Proofs.QuotedLabels
import BranchingTime.Proofs.Successors
import Std.Data.String.ToNat

set_option autoImplicit false

/-! # Labels cannot alter a drawing

Whatever the ids and the properties of the states are, the quoted strings of a drawing are the
labels of its states, and without them the drawing is that of states with empty labels
(`Dot.outline`), which is told by indices alone (`Dot.reads_dot`).

In an outline an edge between two states occurs as often as it is listed. The arrows into initial
states are no such edges: they come from names that have no `s`, the letter that the name of a state
begins with. And where an edge begins, the digits of both indices are those of the line, as a blank
and a semicolon end them (`Dot.edge_prefix_edge_iff`). -/

namespace BranchingTime

namespace Dot

variable {α ι : Type} {style : Style} {d : Char} {highlighted isInitial : Bool} {i j a b : Nat}
  {x y : List Char}

/-! ## Outlines -/

/-- A drawing with these lines for its states. -/
def drawing (style : Style) (nodes : List String) (initials : List Nat)
    (successors : Array (List Nat)) : String :=
  "digraph \x7b\n" ++
    "node [shape=" ++ style.shape ++ "];\n" ++
    String.join nodes ++
    entryLines initials ++
    String.join (successors.toList.zipIdx.map fun (js, i) => edgeLines i js) ++
    "\x7d\n"

/-- A state without anything to say about itself. -/
def blank (isInitial : Bool) : State String := (State.ofId "").setInitial isInitial

/-- A drawing of states with empty labels, which is told by indices alone. -/
def outline (style : Style) (size : Nat) (initials highlighted : List Nat)
    (successors : Array (List Nat)) : String :=
  drawing style
    ((List.range size).map fun i =>
      nodeLine style (highlighted.contains i) i (blank (initials.contains i)))
    initials successors

/-- The texts of the style, which stand outside of quotation marks, have neither quotation marks nor
    heads of arrows. No plain identifier has any. -/
def Style.IsPlain (style : Style) : Prop :=
  ∀ text ∈ [style.shape, style.initialShape, style.fill], '"' ∉ text.toList ∧ '>' ∉ text.toList

instance (style : Style) : Decidable style.IsPlain :=
  inferInstanceAs (Decidable
    (∀ text ∈ [style.shape, style.initialShape, style.fill], '"' ∉ text.toList ∧ '>' ∉ text.toList))

/-! ## The lines of states -/

/-- What stands behind the label of a state. -/
def attributes (style : Style) (isInitial highlighted : Bool) : String :=
  (if isInitial then ", shape=" ++ style.initialShape else "") ++
    (if highlighted then ", style=filled, fillcolor=" ++ style.fill else "") ++ "];\n"

theorem toList_nodeLine [ToString ι] (style : Style) (highlighted : Bool) (i : Nat) (s : State ι) :
    (nodeLine style highlighted i s).toList =
      ("s" ++ toString i ++ " [label=").toList ++ '"' :: ((label style s).toList ++ ['"']) ++
        (attributes style s.isInitial highlighted).toList := by
  have hopen : " [label=\"".toList = " [label=".toList ++ ['"'] := rfl
  have hclose : "\"".toList = ['"'] := rfl
  simp only [nodeLine, attributes, String.toList_append, hopen, hclose, List.append_assoc,
    List.cons_append, List.nil_append]

theorem label_blank (style : Style) (b : Bool) : label style (blank b) = "" := by
  have hempty : (blank b).properties.isEmpty = true := rfl
  have hescape : escape "" = "" := String.toList_inj.1 (toList_escape "")
  rw [label, hempty, Bool.not_true, Bool.and_false, if_neg Bool.false_ne_true]
  exact hescape

theorem not_mem_toDigits (hd : d.isDigit = false) (n : Nat) : d ∉ Nat.toDigits 10 n := by
  intro h
  rw [Nat.isDigit_of_mem_toDigits (by decide) (by decide) h] at hd
  cases hd

theorem toDigits_inj : Nat.toDigits 10 i = Nat.toDigits 10 j ↔ i = j := by
  refine ⟨?_, fun h => congrArg _ h⟩
  intro h
  refine Nat.repr_injective ?_
  rw [Nat.repr_eq_ofList_toDigits, Nat.repr_eq_ofList_toDigits, h]

theorem Style.IsPlain.not_mem_attributes (hstyle : style.IsPlain) (hd : d = '"' ∨ d = '>') :
    d ∉ (attributes style isInitial highlighted).toList := by
  have htexts : ∀ text ∈ [style.shape, style.initialShape, style.fill], d ∉ text.toList := by
    intro text htext
    rcases hd with rfl | rfl
    · exact (hstyle text htext).1
    · exact (hstyle text htext).2
  have hinitial : d ∉ style.initialShape.toList := htexts _ (by simp)
  have hfill : d ∉ style.fill.toList := htexts _ (by simp)
  unfold attributes
  rcases hd with rfl | rfl <;> split <;> split <;> simp [hinitial, hfill]

theorem reads_nodeLine [ToString ι] (hstyle : style.IsPlain) (highlighted : Bool) (i : Nat)
    (s : State ι) :
    Reads (nodeLine style highlighted i s).toList
      ⟨(nodeLine style highlighted i (blank s.isInitial)).toList, [(label style s).toList]⟩ := by
  have hopen : '"' ∉ ("s" ++ toString i ++ " [label=").toList := by
    simp [not_mem_toDigits]
  have hattributes : '"' ∉ (attributes style s.isInitial highlighted).toList :=
    hstyle.not_mem_attributes (Or.inl rfl)
  have hreads := ((reads_plain hopen).append (reads_string (staysInside_label style s))).append
    (reads_plain hattributes)
  rw [toList_nodeLine, toList_nodeLine, label_blank]
  exact hreads

theorem isLines_nodeLine [ToString ι] (style : Style) (highlighted : Bool) (i : Nat) (s : State ι) :
    IsLines (nodeLine style highlighted i s).toList := by
  rw [nodeLine, String.toList_append]
  exact isLines_append_of_getLast? _ rfl

/-! ## Edges -/

/-- The edge from one state to another, as it stands in a drawing. -/
def edge (i j : Nat) : String := "s" ++ toString i ++ " -> s" ++ toString j ++ ";"

theorem toList_edge (i j : Nat) :
    (edge i j).toList =
      's' :: (Nat.toDigits 10 i ++ ' ' :: ("-> s".toList ++ (Nat.toDigits 10 j ++ [';']))) := by
  simp [edge]

theorem edge_ne_nil (i j : Nat) : (edge i j).toList ≠ [] := by
  rw [toList_edge]
  exact List.cons_ne_nil _ _

theorem newline_not_mem_edge (i j : Nat) : '\n' ∉ (edge i j).toList := by
  simp [toList_edge, not_mem_toDigits]

theorem occurrences_edge_eq_zero (hx : '>' ∉ x) : occurrences (edge i j).toList x = 0 := by
  have harrow : '>' ∈ (edge i j).toList := by simp [edge]
  exact occurrences_eq_zero harrow hx

/-- No edge stands where no `s` comes before the last arrow. -/
theorem occurrences_edge_append_eq_zero (hx : 's' ∉ x) (hy : '>' ∉ y) :
    occurrences (edge i j).toList (x ++ y) = 0 := by
  rw [toList_edge, occurrences_append_of_not_mem hx, ← toList_edge]
  exact occurrences_edge_eq_zero hy

theorem edge_prefix_edge_iff :
    (edge i j).toList ++ x <+: (edge a b).toList ++ y ↔ i = a ∧ j = b ∧ x <+: y := by
  have hdigit : ∀ n, ∀ c ∈ Nat.toDigits 10 n, c.isDigit = true := fun n c hc =>
    Nat.isDigit_of_mem_toDigits (by decide) (by decide) hc
  have hblank : ¬ ' '.isDigit = true := by decide
  have hsemicolon : ¬ ';'.isDigit = true := by decide
  simp only [toList_edge, List.cons_append, List.append_assoc, List.nil_append,
    List.cons_prefix_cons, true_and, List.prefix_append_right_inj,
    run_prefix_run_iff (hdigit i) (hdigit a) hblank hblank,
    run_prefix_run_iff (hdigit j) (hdigit b) hsemicolon hsemicolon, toDigits_inj]

/-- An edge occurs in its own line, and in that of no other edge. -/
theorem occurrences_edge_line (i j a b : Nat) :
    occurrences (edge i j).toList ((edge a b).toList ++ ['\n']) =
      if i = a ∧ j = b then 1 else 0 := by
  -- behind its first character the line has no `s` before the arrow
  obtain ⟨x, y, hx, hy, hline⟩ : ∃ x y, 's' ∉ x ∧ '>' ∉ y ∧
      (edge a b).toList ++ ['\n'] = 's' :: (x ++ y) := by
    refine ⟨Nat.toDigits 10 a ++ " -> ".toList, 's' :: (Nat.toDigits 10 b ++ ";\n".toList),
      ?_, ?_, ?_⟩
    · simp [not_mem_toDigits]
    · simp [not_mem_toDigits]
    · simp [edge]
  have hbegins : (edge i j).toList <+: 's' :: (x ++ y) ↔ i = a ∧ j = b := by
    rw [← hline]
    simpa using edge_prefix_edge_iff (x := []) (y := ['\n'])
  rw [hline, occurrences_cons, occurrences_edge_append_eq_zero hx hy, Nat.zero_add]
  simp only [hbegins]

theorem toList_edgeLines (a : Nat) (js : List Nat) :
    (edgeLines a js).toList = js.flatMap fun b => (edge a b).toList ++ ['\n'] := by
  simp [edgeLines, edge, List.flatMap_map]

theorem isLines_edgeLines (a : Nat) (js : List Nat) : IsLines (edgeLines a js).toList := by
  rw [toList_edgeLines]
  exact isLines_flatMap fun b _ => isLines_append_of_getLast? _ rfl

/-- The lines of a state's edges have each edge from it as often as it is listed. -/
theorem occurrences_edgeLines (i j a : Nat) (js : List Nat) :
    occurrences (edge i j).toList (edgeLines a js).toList = if i = a then js.count j else 0 := by
  rw [toList_edgeLines, occurrences_flatMap (edge_ne_nil i j) (newline_not_mem_edge i j)
    fun b _ => isLines_append_of_getLast? _ rfl]
  simp only [occurrences_edge_line]
  induction js with
  | nil => simp
  | cons b js ih =>
    rw [List.map_cons, List.sum_cons, ih, List.count_cons]
    by_cases ha : i = a
    · by_cases hb : j = b
      · simp [ha, hb, Nat.add_comm]
      · simp [ha, hb, Ne.symm hb]
    · simp [ha]

/-- Of the lists of a row that begins with the index `k`, the one with the index `i` counts. -/
theorem sum_zipIdx_count (ls : List (List Nat)) (i j k : Nat) :
    ((ls.zipIdx k).map fun p => if i = p.2 then p.1.count j else 0).sum =
      if k ≤ i then (ls.getD (i - k) []).count j else 0 := by
  induction ls generalizing k with
  | nil => simp
  | cons l ls ih =>
    rw [List.zipIdx_cons, List.map_cons, List.sum_cons, ih]
    rcases Nat.lt_trichotomy i k with hlt | rfl | hgt
    · rw [if_neg (by omega), if_neg (by omega), if_neg (by omega)]
    · rw [if_pos rfl, if_neg (by omega), if_pos (Nat.le_refl i), Nat.sub_self]
      rfl
    · rw [if_neg (by omega), if_pos (by omega), if_pos (by omega), Nat.zero_add,
        show i - k = i - (k + 1) + 1 by omega, List.getD_cons_succ]

/-! ## Arrows into initial states -/

/-- The arrow into an initial state, as it stands in a drawing. -/
def entry (a : Nat) : String := "init" ++ toString a ++ " -> s" ++ toString a ++ ";\n"

theorem isLines_entry (a : Nat) : IsLines (entry a).toList := by
  rw [entry, String.toList_append]
  exact isLines_append_of_getLast? _ rfl

theorem occurrences_entry (i j a : Nat) : occurrences (edge i j).toList (entry a).toList = 0 := by
  have hsplit : (entry a).toList =
      ("init".toList ++ (Nat.toDigits 10 a ++ " -> ".toList)) ++
        's' :: (Nat.toDigits 10 a ++ ";\n".toList) := by
    simp [entry]
  rw [hsplit]
  refine occurrences_edge_append_eq_zero ?_ ?_
  · simp [not_mem_toDigits]
  · simp [not_mem_toDigits]

/-- What leads into initial states: the points, without arrows, and then the arrows. -/
theorem exists_toList_entryLines_eq (initials : List Nat) :
    ∃ x, '>' ∉ x ∧ IsLines x ∧
      (entryLines initials).toList = x ++ initials.flatMap fun a => (entry a).toList := by
  by_cases hinitials : initials = []
  · subst hinitials
    exact ⟨[], List.not_mem_nil, isLines_nil, rfl⟩
  · have hempty : initials.isEmpty = false := by simpa using hinitials
    rw [entryLines, hempty, if_neg Bool.false_ne_true, String.toList_append, String.toList_append,
      String.toList_join, List.flatMap_map]
    refine ⟨_, ?_, isLines_append_of_getLast? _ rfl, rfl⟩
    simp [String.toList_join, List.flatMap_map, not_mem_toDigits]

theorem isLines_entryLines (initials : List Nat) : IsLines (entryLines initials).toList := by
  obtain ⟨x, -, hlines, htext⟩ := exists_toList_entryLines_eq initials
  rw [htext]
  exact hlines.append (isLines_flatMap fun a _ => isLines_entry a)

/-- The arrows into initial states are no edges between states. -/
theorem occurrences_entryLines (i j : Nat) (initials : List Nat) :
    occurrences (edge i j).toList (entryLines initials).toList = 0 := by
  obtain ⟨x, hx, hlines, htext⟩ := exists_toList_entryLines_eq initials
  rw [htext, occurrences_append (edge_ne_nil i j) (newline_not_mem_edge i j) hlines,
    occurrences_edge_eq_zero hx,
    occurrences_flatMap (edge_ne_nil i j) (newline_not_mem_edge i j) fun a _ => isLines_entry a]
  simp [occurrences_entry]

/-! ## Drawings -/

theorem Style.IsPlain.arrow_not_mem_nodeLine (hstyle : style.IsPlain) (highlighted : Bool)
    (i : Nat) (isInitial : Bool) :
    '>' ∉ (nodeLine style highlighted i (blank isInitial)).toList := by
  have hattributes : '>' ∉ (attributes style (blank isInitial).isInitial highlighted).toList :=
    hstyle.not_mem_attributes (Or.inr rfl)
  rw [toList_nodeLine, label_blank]
  simp [not_mem_toDigits, hattributes]

theorem toList_drawing (style : Style) (nodes : List String) (initials : List Nat)
    (successors : Array (List Nat)) :
    (drawing style nodes initials successors).toList =
      ("digraph \x7b\n" ++ "node [shape=" ++ style.shape ++ "];\n").toList ++
        nodes.flatMap String.toList ++ (entryLines initials).toList ++
        successors.toList.zipIdx.flatMap (fun p => (edgeLines p.2 p.1).toList) ++
        "\x7d\n".toList := by
  unfold drawing
  simp only [String.toList_append, String.toList_join, List.flatMap_map]

/-- **An outline has each edge as often as it is listed.** -/
theorem occurrences_outline (hstyle : style.IsPlain) (size : Nat) (initials highlighted : List Nat)
    (successors : Array (List Nat)) (i j : Nat) :
    occurrences (edge i j).toList (outline style size initials highlighted successors).toList =
      (successors.getD i []).count j := by
  have hne := edge_ne_nil i j
  have hnewline := newline_not_mem_edge i j
  have hend : '>' ∉ "\x7d\n".toList := by decide
  -- the lines before all arrows
  obtain ⟨front, hfront, hlines, htext⟩ : ∃ front, '>' ∉ front ∧ IsLines front ∧
      (outline style size initials highlighted successors).toList =
        front ++ (entryLines initials).toList ++
          successors.toList.zipIdx.flatMap (fun p => (edgeLines p.2 p.1).toList) ++
          "\x7d\n".toList := by
    rw [outline, toList_drawing, List.flatMap_map]
    have hshape : '>' ∉ style.shape.toList := (hstyle style.shape List.mem_cons_self).2
    refine ⟨_, ?_, ?_, rfl⟩
    · simp [hshape, hstyle.arrow_not_mem_nodeLine]
    · rw [String.toList_append]
      exact (isLines_append_of_getLast? _ rfl).append
        (isLines_flatMap fun i _ => isLines_nodeLine style _ i _)
  have hentries := hlines.append (isLines_entryLines initials)
  have hedges := hentries.append
    (isLines_flatMap fun p (_ : p ∈ successors.toList.zipIdx) => isLines_edgeLines p.2 p.1)
  rw [htext, occurrences_append hne hnewline hedges, occurrences_append hne hnewline hentries,
    occurrences_append hne hnewline hlines, occurrences_edge_eq_zero hfront,
    occurrences_entryLines, occurrences_flatMap hne hnewline fun p _ => isLines_edgeLines p.2 p.1,
    occurrences_edge_eq_zero hend]
  simp only [occurrences_edgeLines, sum_zipIdx_count, Nat.zero_le, if_true, Nat.sub_zero,
    Nat.zero_add, Nat.add_zero]
  rw [Array.getD_eq_getD_getElem?, List.getD_eq_getElem?_getD, Array.getElem?_toList]

theorem mark_not_mem_entryLines (initials : List Nat) : '"' ∉ (entryLines initials).toList := by
  unfold entryLines
  split
  · exact List.not_mem_nil
  · simp [String.toList_join, List.flatMap_map, not_mem_toDigits]

theorem mark_not_mem_edgeLines (a : Nat) (js : List Nat) : '"' ∉ (edgeLines a js).toList := by
  rw [toList_edgeLines]
  simp [edge, not_mem_toDigits]

/-- A drawing is read line by line. -/
theorem reads_drawing (hstyle : style.IsPlain) {nodes emptied : α → String}
    {labels : α → List Char} {l : List α}
    (h : ∀ a ∈ l, Reads (nodes a).toList ⟨(emptied a).toList, [labels a]⟩) (initials : List Nat)
    (successors : Array (List Nat)) :
    Reads (drawing style (l.map nodes) initials successors).toList
      ⟨(drawing style (l.map emptied) initials successors).toList, l.map labels⟩ := by
  have hshape : '"' ∉ style.shape.toList := (hstyle style.shape List.mem_cons_self).1
  have hheader : '"' ∉ ("digraph \x7b\n" ++ "node [shape=" ++ style.shape ++ "];\n").toList := by
    simp [hshape]
  have hedges : '"' ∉ successors.toList.zipIdx.flatMap fun p => (edgeLines p.2 p.1).toList := by
    simp [mark_not_mem_edgeLines]
  have hend : '"' ∉ "\x7d\n".toList := by decide
  have hreads := ((((reads_plain hheader).append (reads_flatMap h)).append
    (reads_plain (mark_not_mem_entryLines initials))).append (reads_plain hedges)).append
    (reads_plain hend)
  have hlabels : [] ++ l.flatMap (fun a => [labels a]) ++ [] ++ [] ++ [] = l.map labels := by
    rw [List.map_eq_flatMap]
    simp
  rw [toList_drawing, toList_drawing, List.flatMap_map, List.flatMap_map, ← hlabels]
  exact hreads

/-- Whether a state is initial, and whether it is highlighted, is told by its index. -/
theorem map_nodeLine_blank (m : Model ι) (highlight : Option BitSet) (style : Style) :
    (m.states.toList.zipIdx.map fun p =>
        nodeLine style (highlight.any (·.contains p.2)) p.2 (blank p.1.isInitial)) =
      (List.range m.size).map fun i =>
        nodeLine style (((List.range m.size).filter fun i => highlight.any (·.contains i)).contains i)
          i (blank (m.initials.contains i)) := by
  refine List.ext_getElem ?_ ?_
  · simp [Model.size]
  · intro i hi hi'
    have hsize : i < m.states.size := by simpa using hi
    have hinitial : m.initials.contains i = m.states[i].isInitial := by
      rw [Bool.eq_iff_iff, List.contains_iff_mem, Model.initials, Model.mem_indicesWhere,
        Array.getElem?_eq_getElem hsize]
      simp
    have hhighlighted :
        ((List.range m.size).filter fun i => highlight.any (·.contains i)).contains i =
          highlight.any (·.contains i) := by
      rw [Bool.eq_iff_iff, List.contains_iff_mem, List.mem_filter, List.mem_range]
      exact ⟨And.right, fun h => ⟨hsize, h⟩⟩
    simp only [List.getElem_map, List.getElem_zipIdx, List.getElem_range, Array.getElem_toList,
      Nat.zero_add, hinitial, hhighlighted]

/-- **A drawing is read as its outline and the labels of the states.** -/
theorem reads_dot [DecidableEq ι] [Hashable ι] [ToString ι] (m : Model ι)
    (highlight : Option BitSet) (hstyle : style.IsPlain) :
    Reads (m.dot highlight style).toList
      ⟨(outline style m.size m.initials
          ((List.range m.size).filter fun i => highlight.any (·.contains i)) m.successors).toList,
        m.states.toList.map fun s => (label style s).toList⟩ := by
  have hdot : m.dot highlight style = drawing style
      (m.states.toList.zipIdx.map fun p =>
        nodeLine style (highlight.any (·.contains p.2)) p.2 p.1)
      m.initials m.successors := rfl
  have hnodes : ∀ p ∈ m.states.toList.zipIdx,
      Reads (nodeLine style (highlight.any (·.contains p.2)) p.2 p.1).toList
        ⟨(nodeLine style (highlight.any (·.contains p.2)) p.2 (blank p.1.isInitial)).toList,
          [(label style p.1).toList]⟩ := fun p _ => reads_nodeLine hstyle _ p.2 p.1
  have hreads := reads_drawing hstyle hnodes m.initials m.successors
  have hlabels : m.states.toList.zipIdx.map (fun p => (label style p.1).toList) =
      m.states.toList.map fun s => (label style s).toList := by
    have hstates : m.states.toList.zipIdx.map Prod.fst = m.states.toList := List.zipIdx_map_fst 0 _
    conv_rhs => rw [← hstates, List.map_map]
    rfl
  rw [map_nodeLine_blank, hlabels] at hreads
  rw [hdot]
  exact hreads

end Dot

namespace Model

open Dot

/-- **Labels cannot alter a drawing**, whatever ids and properties are made of. The quoted strings
    of the drawing are the labels of the states, one for each and in their order, and the rest is
    told without ids and properties. In the rest an edge from one state to another occurs once if
    the second one is a successor of the first, and otherwise not at all. The first line of each
    label is the id. -/
theorem exists_read_dot {ι : Type} [DecidableEq ι] [Hashable ι] [ToString ι] (m : Model ι)
    (highlight : Option BitSet) {style : Style} (hstyle : style.IsPlain) :
    ∃ r, Dot.read (m.dot highlight style) = some r ∧
      r.strings = m.states.toList.map (fun s => (label style s).toList) ∧
      r.outside = (outline style m.size m.initials
        ((List.range m.size).filter fun i => highlight.any (·.contains i)) m.successors).toList ∧
      (∀ i j, occurrences (edge i j).toList r.outside =
        if j ∈ m.successors.getD i [] then 1 else 0) ∧
      ∀ s ∈ m.states, firstLine (label style s).toList = (toString s.id).toList := by
  obtain ⟨r, hread, houtside, hstrings⟩ := (reads_dot m highlight hstyle).exists_read_eq
  refine ⟨r, hread, hstrings, houtside, ?_, ?_⟩
  · intro i j
    have hnodup : (m.successors.getD i []).Nodup := (m.pairwise_successors i).imp Nat.ne_of_lt
    rw [houtside, occurrences_outline hstyle, hnodup.count]
  · intro s _
    exact firstLine_label style s

/-- A state whose id, were it not escaped, would end its label and draw an edge. -/
def intruder : Model String := ofList [State.ofId "\"];\ns0 -> s0;\n\\"]

/-- The edge in the id is not drawn, nor is the state behind those of the model highlighted. -/
theorem exists_read_dot_intruder :
    Style.plain.IsPlain ∧
      ∃ r, Dot.read (intruder.dot (some (BitSet.full 2)) Style.plain) = some r ∧
        r.strings.length = 1 ∧ occurrences (edge 0 0).toList r.outside = 0 := by
  have hplain : Style.plain.IsPlain := by decide
  obtain ⟨r, hread, hstrings, -, hedges, -⟩ :=
    exists_read_dot intruder (some (BitSet.full 2)) hplain
  have hnone : intruder.successors.getD 0 [] = [] := by
    simp only [successors, intruder, ofList, State.ofId, List.map_toArray, List.map_cons,
      List.map_nil, List.flatMap_nil, List.mergeSort_nil]
    rfl
  refine ⟨hplain, r, hread, ?_, ?_⟩
  · rw [hstrings, List.length_map]
    rfl
  · rw [hedges, hnone]
    rfl

end Model

end BranchingTime
