import JayFrontEnd.Diagnostic
import JayFrontEnd.Proofs.Text.Position

/-!
# Where the caret stands

A diagnostic shows the line that a fault points into, without the carriage returns at its end, and a
caret below it. What stands before the caret comes from what stands before the fault in its line,
one blank for each character, so that the caret is under the character the fault points at, however
wide a tab is. This holds behind the end of the shown line too, since a carriage return that has
been cut off would have made a blank like any other character.
-/

namespace JayFrontEnd

open Text

namespace Diagnostic

/-- What stands below a character to the left of the caret. -/
def blank (c : Char) : Char := if c = '\t' then '\t' else ' '

/-- The column that a text ends in if it starts in column `start` of a display. `tab` tells where a
tab leads to from a column, and every other character is one column wide. -/
def displayColumn (tab : Nat → Nat) (start : Nat) (cs : List Char) : Nat :=
  cs.foldl (fun column c => if c = '\t' then tab column else column + 1) start

variable {d : Diagnostic} {source : Source} {fault : Fault} {p : Position}
  {above head tail below shown cs : List Char} {k : Nat}

/-- The blanks for the first part of a line, made from what is shown of the line. -/
theorem blanks_eq (h : head ++ tail = shown ++ List.replicate k '\r') :
    blanks head.length shown = head.map blank := by
  induction head generalizing shown k with
  | nil => rfl
  | cons c head ih =>
    cases shown with
    | cons x shown =>
      obtain ⟨rfl, hrest⟩ := List.cons.inj h
      rw [List.length_cons, blanks, ih hrest]
      rfl
    | nil =>
      -- what is shown has come to its end: the rest of the line are carriage returns
      cases k with
      | zero => cases h
      | succ k =>
        obtain ⟨rfl, hrest⟩ := List.cons.inj h
        have hblanks : blanks head.length [] = head.map blank := ih hrest
        rw [List.length_cons, blanks, hblanks]
        rfl

/-- Blanks lead to the same column as the characters that they stand for. -/
theorem displayColumn_map_blank (tab : Nat → Nat) (start : Nat) (cs : List Char) :
    displayColumn tab start (cs.map blank) = displayColumn tab start cs := by
  unfold displayColumn
  rw [List.foldl_map]
  congr 1
  funext column c
  by_cases hc : c = '\t'
  · simp [blank, hc]
  · simp [blank, hc]

theorem not_mem_map_blank (cs : List Char) : '\n' ∉ cs.map blank := by
  rw [List.mem_map]
  rintro ⟨c, -, hc⟩
  unfold blank at hc
  split at hc <;> cases hc

/-- The fault points between `head` and `tail`, the parts of a line of the source, which stands
between the text above it and the text below; `p` is the position of that place. The diagnostic
shows the line, and before its caret a blank for each character of `head`. -/
structure PointsBetween (d : Diagnostic) (source : Source) (fault : Fault) (p : Position)
    (above head tail below : List Char) : Prop where
  offset : fault.offset? = some (byteLength (above ++ head))
  position : source.position? (byteLength (above ++ head)) = some p
  chars : source.chars = above ++ (head ++ tail) ++ below
  around : Around above below
  one_line : '\n' ∉ head ++ tail
  message : d.message = fault.message
  link : d.link = p.link
  line : ∃ k, head ++ tail = d.line.toList ++ List.replicate k '\r' ∧
    d.line.toList.getLast? ≠ some '\r'
  column : d.column = head.length
  caret : d.caret.toList = head.map blank ++ ['^']

theorem exists_pointsBetween (h : of? source fault = some d) :
    ∃ p above head tail below, d.PointsBetween source fault p above head tail below := by
  obtain ⟨offset, hoffset, h⟩ := Option.bind_eq_some_iff.1 h
  obtain ⟨p, hposition, hd⟩ := Option.bind_eq_some_iff.1 h
  cases hd
  obtain ⟨i, f, hlocates⟩ := Source.exists_locates hposition
  obtain ⟨before, after, hchars, haround, hstart⟩ := Source.exists_around hlocates.file
  obtain ⟨above, head, tail, below, hshows⟩ := SourceFile.exists_shows hlocates.position?
  have hbytes : byteLength (before ++ above ++ head) = offset := by
    have hle := hlocates.start_le
    have hrest := hshows.offset
    simp only [byteLength_append] at hrest ⊢
    omega
  obtain ⟨k, hline, hlast⟩ := hshows.lineText
  refine ⟨p, before ++ above, head, tail, below ++ after, {
    offset := hbytes ▸ hoffset
    position := hbytes.symm ▸ hposition
    chars := ?_
    around := haround.inside hshows.around
    one_line := hshows.one_line
    message := rfl
    link := rfl
    line := ⟨k, hline, hlast⟩
    column := hshows.column
    caret := ?_ }⟩
  · rw [hchars, hshows.chars]
    simp only [List.append_assoc]
  · rw [caret, String.toList_ofList, hshows.column, blanks_eq hline]

/-! ## The three lines -/

theorem not_mem_toString (n : Nat) : '\n' ∉ (toString n).toList := by
  intro h
  have hdigits : '\n' ∈ Nat.toDigits 10 n := by simpa [toString, Nat.repr] using h
  have hdigit := Nat.isDigit_of_mem_toDigits (by omega) (by omega) hdigits
  cases hdigit

theorem not_mem_link (h : '\n' ∉ p.file.toList) : '\n' ∉ p.link.toList := by
  have hcolon : '\n' ∉ ":".toList := by decide
  have hline := not_mem_toString p.line
  have hcolumn := not_mem_toString (p.column + 1)
  simp only [Position.link, String.toList_append, List.mem_append, not_or]
  exact ⟨⟨⟨⟨h, hcolon⟩, hline⟩, hcolon⟩, hcolumn⟩

/-- A rendering has a line for each of its parts, if there are no line feeds in these. -/
theorem lines_render (hmessage : '\n' ∉ d.message.toList) (hlink : '\n' ∉ d.link.toList)
    (hline : '\n' ∉ d.line.toList) (hcaret : '\n' ∉ d.caret.toList) : lines d.render.toList =
      [s!"error: {d.message} --> {d.link}", "    " ++ d.line, "    " ++ d.caret].map
        String.toList := by
  have hindent : '\n' ∉ "    ".toList := by decide
  have hheader : '\n' ∉ (s!"error: {d.message} --> {d.link}").toList := by
    have herror : '\n' ∉ "error: ".toList := by decide
    have harrow : '\n' ∉ " --> ".toList := by decide
    simp only [String.toList_append, List.mem_append, not_or]
    exact ⟨⟨⟨herror, hmessage⟩, harrow⟩, hlink⟩
  have hrender : d.render.toList = (s!"error: {d.message} --> {d.link}").toList ++
      '\n' :: (("    " ++ d.line).toList ++ '\n' :: ("    " ++ d.caret).toList) := by
    simp [render, toString]
  have hbelow : ∀ s : String, '\n' ∉ s.toList → '\n' ∉ ("    " ++ s).toList := by
    intro s hs
    rw [String.toList_append, List.mem_append, not_or]
    exact ⟨hindent, hs⟩
  rw [hrender, lines, split_append hheader, split_append (hbelow _ hline),
    split_of_not_mem (hbelow _ hcaret)]
  rfl

/-- A diagnostic shows the line that the fault points into and, below it, one blank for each
character before the place in its line and then the caret. A blank is a tab below a tab, so the
caret is in the column of the character at the place, whatever a tab is. Unless there are line feeds
in the message or the name of the file, the rendering is three lines, the last two of them indented
alike. -/
theorem caret_under_offset (h : of? source fault = some d) :
    ∃ p above head tail below, d.PointsBetween source fault p above head tail below ∧
      (∀ tab start, displayColumn tab start (head.map blank) = displayColumn tab start head) ∧
      ('\n' ∉ d.message.toList → '\n' ∉ p.file.toList → lines d.render.toList =
        [s!"error: {d.message} --> {d.link}", "    " ++ d.line, "    " ++ d.caret].map
          String.toList) := by
  obtain ⟨p, above, head, tail, below, hpoints⟩ := exists_pointsBetween h
  refine ⟨p, above, head, tail, below, hpoints, fun tab start => displayColumn_map_blank .., ?_⟩
  intro hmessage hfile
  refine lines_render hmessage (hpoints.link ▸ not_mem_link hfile) (fun hline => ?_) ?_
  · obtain ⟨k, hk, -⟩ := hpoints.line
    exact hpoints.one_line (hk ▸ List.mem_append_left _ hline)
  · rw [hpoints.caret]
    simpa using not_mem_map_blank head

/-- Two files; the second has a line that ends with carriage returns. -/
def twoFiles : Source := ⟨[⟨"a.j", "x"⟩, ⟨"b.j", "é\ty\r\r\nz"⟩]⟩

/-- The fault points at the second of the carriage returns, which are not shown. -/
theorem caret_under_offset_cutLine :
    ∃ d, of? twoFiles (.unexpectedInput 7) = some d ∧ d.line = "é\ty" ∧ d.caret = " \t  ^" ∧
      ∃ p above head tail below,
        d.PointsBetween twoFiles (.unexpectedInput 7) p above head tail below ∧
        (∀ tab start, displayColumn tab start (head.map blank) = displayColumn tab start head) ∧
        ('\n' ∉ d.message.toList → '\n' ∉ p.file.toList → lines d.render.toList =
          [s!"error: {d.message} --> {d.link}", "    " ++ d.line, "    " ++ d.caret].map
            String.toList) := by
  have h : of? twoFiles (.unexpectedInput 7) =
      some ⟨"b.j:1:5", "unexpected input", "é\ty", 4⟩ := by decide +kernel
  exact ⟨_, h, rfl, by decide +kernel, caret_under_offset h⟩

end Diagnostic

end JayFrontEnd
