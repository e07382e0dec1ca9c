import BranchingTime.Kripke.Dot
import BranchingTime.Proofs.Occurrences

set_option autoImplicit false

/-! # Quoted labels

A text with quoted strings is read with the rule that inside a string a backslash takes the next
character with it (`Dot.read`). An escaped text, read inside a string, never ends it: each
quotation mark and each backslash of its own comes behind a backslash. So a label between quotation
marks is read as one string, the label itself (`Dot.staysInside_label`, `Dot.reads_string`).

The line break of a label is a backslash and an `n`, which no escaped text has. So what stands
before it, with the escapes undone, is the id of the state (`Dot.firstLine_label`). -/

namespace BranchingTime

namespace Dot

/-! ## Reading quoted strings -/

/-- A text taken apart into its quoted strings and the rest. -/
structure Reading where
  /-- The text with its strings emptied: of each the two quotation marks are left. -/
  outside : List Char
  /-- What stands between the quotation marks, string by string. -/
  strings : List (List Char)
deriving DecidableEq, Repr

instance : Append Reading := ⟨fun r r' => ⟨r.outside ++ r'.outside, r.strings ++ r'.strings⟩⟩

/-- What is read from here on, be it outside all strings (`none`) or inside one that begins with
    `body`. Inside, a backslash takes the next character with it. A text that ends inside a string
    is not read. -/
def readFrom : Option (List Char) → List Char → Option Reading
  | none, [] => some ⟨[], []⟩
  | none, c :: cs =>
    (readFrom (if c = '"' then some [] else none) cs).map fun r => ⟨c :: r.outside, r.strings⟩
  | some _, [] => none
  | some body, '\\' :: c :: cs => readFrom (some (body ++ ['\\', c])) cs
  | some body, c :: cs =>
    if c = '"' then (readFrom none cs).map fun r => ⟨c :: r.outside, body :: r.strings⟩
    else readFrom (some (body ++ [c])) cs

/-- The quoted strings of a text, and the rest. -/
def read (text : String) : Option Reading := readFrom none text.toList

/-- The text is read as `r`, whatever follows it. -/
def Reads (text : List Char) (r : Reading) : Prop :=
  ∀ rest, readFrom none (text ++ rest) = (readFrom none rest).map (r ++ ·)

/-- The text goes on with any string that it stands in. -/
def StaysInside (text : List Char) : Prop :=
  ∀ body rest, readFrom (some body) (text ++ rest) = readFrom (some (body ++ text)) rest

variable {α ι : Type} {c : Char} {x y : List Char} {r r' : Reading}

theorem Reading.append_assoc (r r' r'' : Reading) : r ++ r' ++ r'' = r ++ (r' ++ r'') := by
  show Reading.mk (r.outside ++ r'.outside ++ r''.outside) (r.strings ++ r'.strings ++ r''.strings) =
    Reading.mk (r.outside ++ (r'.outside ++ r''.outside)) (r.strings ++ (r'.strings ++ r''.strings))
  rw [List.append_assoc, List.append_assoc]

theorem Reads.exists_read_eq {text : String} {ls : List (List Char)}
    (h : Reads text.toList ⟨x, ls⟩) :
    ∃ r, read text = some r ∧ r.outside = x ∧ r.strings = ls := by
  have hnil := h []
  rw [List.append_nil] at hnil
  rw [read, hnil, readFrom, Option.map_some]
  exact ⟨_, rfl, List.append_nil x, List.append_nil ls⟩

theorem reads_nil : Reads [] ⟨[], []⟩ := by
  intro rest
  show readFrom none rest = (readFrom none rest).map id
  rw [Option.map_id]
  rfl

theorem Reads.append (hx : Reads x r) (hy : Reads y r') : Reads (x ++ y) (r ++ r') := by
  intro rest
  rw [List.append_assoc, hx, hy, Option.map_map]
  congr 1
  funext s
  exact (Reading.append_assoc r r' s).symm

/-- Outside of strings a text without quotation marks is left as it is. -/
theorem reads_plain (hx : '"' ∉ x) : Reads x ⟨x, []⟩ := by
  induction x with
  | nil => exact reads_nil
  | cons c x ih =>
    obtain ⟨hc, hx'⟩ : '"' ≠ c ∧ '"' ∉ x := by simpa using hx
    intro rest
    rw [List.cons_append, readFrom, if_neg hc.symm, ih hx', Option.map_map]
    rfl

/-- Between quotation marks a text that goes on with the string is all of it. -/
theorem reads_string (hx : StaysInside x) : Reads ('"' :: (x ++ ['"'])) ⟨['"', '"'], [x]⟩ := by
  intro rest
  rw [List.cons_append, readFrom, if_pos rfl, List.append_assoc, hx, List.nil_append,
    List.singleton_append, readFrom, if_pos rfl, Option.map_map]
  · rfl
  · intro d cs h
    cases h

theorem reads_flatMap {f : α → List Char} {g : α → Reading} {l : List α}
    (h : ∀ a ∈ l, Reads (f a) (g a)) :
    Reads (l.flatMap f) ⟨l.flatMap fun a => (g a).outside, l.flatMap fun a => (g a).strings⟩ := by
  induction l with
  | nil => exact reads_nil
  | cons a l ih =>
    exact (h a List.mem_cons_self).append (ih fun b hb => h b (List.mem_cons_of_mem a hb))

/-! ## Labels -/

theorem staysInside_nil : StaysInside [] := by
  intro body rest
  rw [List.append_nil, List.nil_append]

theorem StaysInside.append (hx : StaysInside x) (hy : StaysInside y) : StaysInside (x ++ y) := by
  intro body rest
  rw [List.append_assoc, hx, hy, List.append_assoc]

theorem staysInside_pair (c : Char) : StaysInside ['\\', c] := by
  intro body rest
  rfl

theorem staysInside_singleton (hmark : c ≠ '"') (hbackslash : c ≠ '\\') : StaysInside [c] := by
  intro body rest
  rw [List.singleton_append, readFrom, if_neg hmark]
  intro d cs h
  exact absurd h hbackslash

theorem staysInside_flatMap {f : α → List Char} {l : List α} (h : ∀ a ∈ l, StaysInside (f a)) :
    StaysInside (l.flatMap f) :=
  flatMap_induction staysInside_nil StaysInside.append h

/-- No escaped text ends a string that it stands in. -/
theorem staysInside_escape (text : String) : StaysInside (escape text).toList := by
  rw [toList_escape]
  refine staysInside_flatMap ?_
  intro c _
  by_cases hc : c = '\\' ∨ c = '"'
  · rw [if_pos hc]
    exact staysInside_pair c
  · rw [if_neg hc]
    exact staysInside_singleton (fun h => hc (Or.inr h)) (fun h => hc (Or.inl h))

theorem staysInside_plain (hmark : '"' ∉ x) (hbackslash : '\\' ∉ x) : StaysInside x := by
  have h : StaysInside (x.flatMap fun c => [c]) := by
    refine staysInside_flatMap ?_
    intro c hc
    exact staysInside_singleton (ne_of_mem_of_not_mem hc hmark)
      (ne_of_mem_of_not_mem hc hbackslash)
  simpa using h

theorem staysInside_intercalate {ls : List (List Char)} (hx : StaysInside x)
    (h : ∀ l ∈ ls, StaysInside l) : StaysInside (x.intercalate ls) := by
  induction ls with
  | nil => exact staysInside_nil
  | cons l ls ih =>
    have hl : StaysInside l := h l List.mem_cons_self
    have hls := ih fun l' hl' => h l' (List.mem_cons_of_mem l hl')
    cases ls with
    | nil => rwa [List.intercalate_singleton]
    | cons l' ls =>
      rw [List.intercalate_cons_cons]
      exact (hl.append hx).append hls

theorem staysInside_label [ToString ι] (style : Style) (s : State ι) :
    StaysInside (label style s).toList := by
  have hid := staysInside_escape (toString s.id)
  unfold label
  split
  · have hproperties : StaysInside
        (String.intercalate ", " (s.properties.toList.map escape)).toList := by
      rw [String.toList_intercalate]
      refine staysInside_intercalate (staysInside_plain (by decide) (by decide)) ?_
      simp only [List.map_map, List.mem_map, Function.comp_apply, forall_exists_index, and_imp,
        forall_apply_eq_imp_iff₂]
      intro p _
      exact staysInside_escape p
    have hopen : StaysInside "\\n\x7b".toList :=
      (staysInside_pair 'n').append (staysInside_singleton (by decide) (by decide))
    have hclose : StaysInside "\x7d".toList := staysInside_singleton (by decide) (by decide)
    simp only [String.toList_append]
    exact ((hid.append hopen).append hproperties).append hclose
  · exact hid

/-- What a label says up to its first line break, with each character that a backslash has taken
    along as itself. -/
def firstLine : List Char → List Char
  | '\\' :: 'n' :: _ => []
  | '\\' :: c :: cs => c :: firstLine cs
  | c :: cs => c :: firstLine cs
  | [] => []

theorem firstLine_cons (hc : c ≠ '\\') (cs : List Char) :
    firstLine (c :: cs) = c :: firstLine cs := by
  rw [firstLine]
  · intro d h
    exact absurd h hc
  · intro d ds h
    exact absurd h hc

theorem firstLine_escape_append (text : String) (rest : List Char) :
    firstLine ((escape text).toList ++ rest) = text.toList ++ firstLine rest := by
  rw [toList_escape]
  induction text.toList with
  | nil => rfl
  | cons c cs ih =>
    rw [List.flatMap_cons]
    by_cases hc : c = '\\' ∨ c = '"'
    · rw [if_pos hc]
      -- neither of the two is the letter of a line break
      rcases hc with rfl | rfl
      · simp [firstLine, ih]
      · simp [firstLine, ih]
    · rw [if_neg hc, List.append_assoc, List.singleton_append,
        firstLine_cons (fun h => hc (Or.inl h)), ih, List.cons_append]

/-- **The first line of a label is the id**, whatever the id is made of. -/
theorem firstLine_label [ToString ι] (style : Style) (s : State ι) :
    firstLine (label style s).toList = (toString s.id).toList := by
  have hid : ∀ rest, firstLine rest = [] →
      firstLine ((escape (toString s.id)).toList ++ rest) = (toString s.id).toList := by
    intro rest hrest
    rw [firstLine_escape_append, hrest, List.append_nil]
  unfold label
  split
  · simp only [String.toList_append, List.append_assoc]
    exact hid _ rfl
  · have h := hid [] rfl
    rwa [List.append_nil] at h

end Dot

end BranchingTime
