import JayFrontEnd.Proofs.Text.Boundary
import Mathlib.Algebra.GroupWithZero.Nat
import Mathlib.Data.List.DropRight

/-!
# Positions and offsets

The lines of a file and the files of a source are both parts of a text with line feeds between them.
`partStart` tells where a part starts, so that an offset is a part and a place in it; there is only
one such pair, and pairs are ordered like offsets. Taken twice, for files and for lines, this says
what the position of an offset is, and that it can be taken back to the offset.
-/

namespace JayFrontEnd

namespace Text

/-- The byte where a part starts, if line feeds stand between the parts. -/
def partStart (parts : List (List Char)) (i : Nat) : Nat :=
  ((parts.take i).map fun part => byteLength part + 1).sum

variable {parts : List (List Char)} {i j m n : Nat} {a b as bs cs : List Char}

@[simp] theorem partStart_zero (parts : List (List Char)) : partStart parts 0 = 0 := rfl

@[simp] theorem partStart_cons_succ (part : List Char) (parts : List (List Char)) (i : Nat) :
    partStart (part :: parts) (i + 1) = byteLength part + 1 + partStart parts i := by
  simp [partStart]

/-- A later part starts behind the line feed of an earlier one. -/
theorem partStart_lt (ha : parts[i]? = some a) (hij : i < j) :
    partStart parts i + byteLength a < partStart parts j := by
  induction parts generalizing i j with
  | nil => cases ha
  | cons part parts ih =>
    obtain ⟨j, rfl⟩ := Nat.exists_eq_succ_of_ne_zero (Nat.ne_zero_of_lt hij)
    rw [partStart_cons_succ]
    cases i with
    | zero =>
      cases ha
      rw [partStart_zero]
      omega
    | succ i =>
      have := ih ha (Nat.lt_of_succ_lt_succ hij)
      rw [partStart_cons_succ]
      omega

/-- Places in parts are ordered like the offsets that they stand for. -/
theorem part_order (hb : parts[j]? = some b) (hn : n ≤ byteLength b)
    (hlt : partStart parts i + m < partStart parts j + n) : i < j ∨ i = j ∧ m < n := by
  rcases Nat.lt_trichotomy i j with hij | rfl | hij
  · exact .inl hij
  · exact .inr ⟨rfl, by omega⟩
  · have := partStart_lt hb hij
    omega

/-- An offset lies in one part only. -/
theorem part_unique (ha : parts[i]? = some a) (hb : parts[j]? = some b) (hm : m ≤ byteLength a)
    (hn : n ≤ byteLength b) (heq : partStart parts i + m = partStart parts j + n) : i = j := by
  rcases Nat.lt_trichotomy i j with hij | rfl | hij
  · have := partStart_lt ha hij
    omega
  · rfl
  · have := partStart_lt hb hij
    omega

/-- What stands around a part: line feeds, unless nothing does. -/
structure Around (above below : List Char) : Prop where
  above : above = [] ∨ ∃ as, above = as ++ ['\n']
  below : below = [] ∨ ∃ bs, below = '\n' :: bs

theorem Around.inside {before after above below : List Char} (h : Around before after)
    (h' : Around above below) : Around (before ++ above) (below ++ after) where
  above := by
    rcases h'.above with rfl | ⟨as, rfl⟩
    · rw [List.append_nil]
      exact h.above
    · exact .inr ⟨before ++ as, (List.append_assoc ..).symm⟩
  below := by
    rcases h'.below with rfl | ⟨bs, rfl⟩
    · exact h.below
    · exact .inr ⟨bs ++ after, rfl⟩

theorem exists_around (h : parts[i]? = some a) : ∃ above below,
    ['\n'].intercalate parts = above ++ a ++ below ∧ Around above below ∧
      byteLength above = partStart parts i ∧
      ((∀ part ∈ parts, '\n' ∉ part) → above.count '\n' = i) := by
  induction parts generalizing i with
  | nil => cases h
  | cons part parts ih =>
    have hsize : ('\n').utf8Size = 1 := rfl
    cases i with
    | zero =>
      cases h
      cases parts with
      | nil => exact ⟨[], [], by simp [List.intercalate], ⟨.inl rfl, .inl rfl⟩, rfl, fun _ => rfl⟩
      | cons next parts =>
        refine ⟨[], _, intercalate_cons_cons a next parts, ⟨.inl rfl, .inr ⟨_, rfl⟩⟩, rfl, ?_⟩
        exact fun _ => rfl
    | succ i =>
      obtain ⟨above, below, hjoin, haround, hstart, hcount⟩ := ih h
      cases parts with
      | nil => cases h
      | cons next parts =>
        refine ⟨part ++ '\n' :: above, below, ?_, ⟨.inr ?_, haround.below⟩, ?_, fun hno => ?_⟩
        · rw [intercalate_cons_cons, hjoin]
          simp
        · rcases haround.above with rfl | ⟨as, rfl⟩
          · exact ⟨part, rfl⟩
          · exact ⟨part ++ '\n' :: as, by simp⟩
        · rw [partStart_cons_succ, byteLength_append, byteLength_cons, hstart, hsize]
          omega
        · have hpart : part.count '\n' = 0 :=
            List.count_eq_zero_of_not_mem (hno part List.mem_cons_self)
          have habove := hcount fun p hp => hno p (List.mem_cons_of_mem _ hp)
          rw [List.count_append, List.count_cons_self, hpart, habove]
          omega

theorem not_mem_of_mem_split {separator : Char} :
    ∀ part ∈ split separator cs, separator ∉ part := by
  induction cs with
  | nil => simp [split]
  | cons c cs ih =>
    rw [split]
    split
    · exact List.forall_mem_cons.2 ⟨List.not_mem_nil, ih⟩
    · next hc =>
      obtain ⟨part, parts, hparts⟩ := List.exists_cons_of_ne_nil (split_ne_nil separator cs)
      rw [hparts] at ih ⊢
      obtain ⟨hpart, hrest⟩ := List.forall_mem_cons.1 ih
      refine List.forall_mem_cons.2 ⟨?_, hrest⟩
      simpa [Ne.symm hc] using hpart

theorem split_of_not_mem {separator : Char} (h : separator ∉ cs) : split separator cs = [cs] := by
  induction cs with
  | nil => rfl
  | cons c cs ih =>
    obtain ⟨hc, hcs⟩ := not_or.1 (List.mem_cons.not.1 h)
    rw [split, if_neg (Ne.symm hc), ih hcs]

theorem split_append {separator : Char} (h : separator ∉ as) :
    split separator (as ++ separator :: bs) = as :: split separator bs := by
  induction as with
  | nil => rw [List.nil_append, split, if_pos rfl]
  | cons c as ih =>
    obtain ⟨hc, has⟩ := not_or.1 (List.mem_cons.not.1 h)
    rw [List.cons_append, split, if_neg (Ne.symm hc), ih has]

/-- What is cut off a line are carriage returns, and no more of them stand at its end. -/
theorem trimReturns_eq (cs : List Char) : ∃ k, cs = trimReturns cs ++ List.replicate k '\r' ∧
    (trimReturns cs).getLast? ≠ some '\r' := by
  have hreturns : cs.rtakeWhile (· == '\r') =
      List.replicate (cs.rtakeWhile (· == '\r')).length '\r' :=
    List.eq_replicate_iff.2 ⟨rfl, fun c hc => by simpa using List.mem_rtakeWhile_imp hc⟩
  refine ⟨(cs.rtakeWhile (· == '\r')).length, ?_, fun hlast => ?_⟩
  · rw [← hreturns]
    exact List.rdropWhile_append_rtakeWhile.symm
  · have hne : cs.rdropWhile (· == '\r') ≠ [] := by
      intro hnil
      have hnone : (trimReturns cs).getLast? = none := congrArg List.getLast? hnil
      simp [hnone] at hlast
    have hc := List.rdropWhile_last_not (· == '\r') cs hne
    have heq := Option.some.inj ((List.getLast?_eq_some_getLast hne).symm.trans hlast)
    simp [heq] at hc

/-- Of two beginnings of a text the one with fewer bytes has fewer characters. -/
theorem length_lt_of_byteLength_lt (ha : as <+: cs) (hb : bs <+: cs)
    (h : byteLength as < byteLength bs) : as.length < bs.length := by
  rcases List.prefix_or_prefix_of_prefix ha hb with ⟨more, rfl⟩ | ⟨more, rfl⟩
  · cases more with
    | nil => simp at h
    | cons c more => simp
  · rw [byteLength_append] at h
    omega

theorem takeBytes?_eq_some (h : takeBytes? n cs = some as) : as <+: cs ∧ byteLength as = n := by
  induction cs generalizing n as with
  | nil =>
    cases n with
    | zero => cases h; exact ⟨List.prefix_rfl, rfl⟩
    | succ n => cases h
  | cons c cs ih =>
    cases n with
    | zero => cases h; exact ⟨List.nil_prefix, rfl⟩
    | succ n =>
      rw [takeBytes?] at h
      split at h
      · obtain ⟨bs, hbs, rfl⟩ := Option.map_eq_some_iff.1 h
        obtain ⟨hpre, hlen⟩ := ih hbs
        refine ⟨List.cons_prefix_cons.2 ⟨rfl, hpre⟩, ?_⟩
        rw [byteLength_cons]
        omega
      · cases h

end Text

open Text

/-! ## Lines of a file -/

namespace SourceFile

/-- The lines of a file, each without the line feed that ends it. -/
def lines (f : SourceFile) : List (List Char) := Text.lines f.chars

/-- The byte of a file where the character in a column of a line stands; lines count from one. -/
def offsetOf (f : SourceFile) (line column : Nat) : Nat :=
  partStart f.lines (line - 1) + byteLength ((f.lines[line - 1]?.getD []).take column)

/-- What the position of byte `n` of a file says about it: the byte is between `head` and `tail` in
a line, which stands between the lines above it and those below. -/
structure Shows (f : SourceFile) (n : Nat) (p : Position) (above head tail below : List Char) :
    Prop where
  chars : f.chars = above ++ (head ++ tail) ++ below
  around : Around above below
  one_line : '\n' ∉ head ++ tail
  offset : n = byteLength (above ++ head)
  file : p.file = f.name
  line : p.line = 1 + above.count '\n'
  column : p.column = head.length
  lineText : ∃ k, head ++ tail = p.lineText.toList ++ List.replicate k '\r' ∧
    p.lineText.toList.getLast? ≠ some '\r'

variable {f : SourceFile} {p q : Position} {m n : Nat}

theorem intercalate_lines (f : SourceFile) : ['\n'].intercalate f.lines = f.chars :=
  intercalate_split '\n' f.chars

theorem lineAt?_eq_some {ls : List (List Char)} {line number column : Nat} {l : List Char}
    (h : lineAt? line n ls = some (number, column, l)) : ∃ i head tail, ls[i]? = some l ∧
      number = line + i ∧ l = head ++ tail ∧ column = head.length ∧
      n = partStart ls i + byteLength head := by
  induction ls generalizing line n with
  | nil => cases h
  | cons first ls ih =>
    rw [lineAt?] at h
    split at h
    · obtain ⟨head, hhead, heq⟩ := Option.map_eq_some_iff.1 h
      cases heq
      obtain ⟨⟨tail, rfl⟩, hlen⟩ := takeBytes?_eq_some hhead
      exact ⟨0, head, tail, rfl, rfl, rfl, rfl, by simp [hlen]⟩
    · obtain ⟨i, head, tail, hl, rfl, hsplit, hcol, hn⟩ := ih h
      refine ⟨i + 1, head, tail, hl, by omega, hsplit, hcol, ?_⟩
      rw [partStart_cons_succ]
      omega

theorem position?_eq_some (h : f.position? n = some p) : ∃ i head tail,
    f.lines[i]? = some (head ++ tail) ∧ n = partStart f.lines i + byteLength head ∧
      p = ⟨f.name, 1 + i, head.length, String.ofList (trimReturns (head ++ tail))⟩ := by
  obtain ⟨⟨number, column, l⟩, hline, rfl⟩ := Option.map_eq_some_iff.1 h
  obtain ⟨i, head, tail, hl, rfl, rfl, rfl, hn⟩ := lineAt?_eq_some hline
  exact ⟨i, head, tail, hl, hn, rfl⟩

theorem exists_shows (h : f.position? n = some p) :
    ∃ above head tail below, f.Shows n p above head tail below := by
  obtain ⟨i, head, tail, hl, rfl, rfl⟩ := position?_eq_some h
  obtain ⟨above, below, hchars, haround, hstart, hcount⟩ := exists_around hl
  have hfeeds : above.count '\n' = i := hcount not_mem_of_mem_split
  rw [intercalate_lines] at hchars
  exact ⟨above, head, tail, below, {
    chars := hchars
    around := haround
    one_line := not_mem_of_mem_split _ (List.mem_of_getElem? hl)
    offset := by rw [byteLength_append, hstart]
    file := rfl
    line := by rw [hfeeds]
    column := rfl
    lineText := by simpa using trimReturns_eq (head ++ tail) }⟩

theorem offsetOf_position? (h : f.position? n = some p) : f.offsetOf p.line p.column = n := by
  obtain ⟨i, head, tail, hl, rfl, rfl⟩ := position?_eq_some h
  show partStart f.lines (1 + i - 1) +
    byteLength ((f.lines[1 + i - 1]?.getD []).take head.length) = _
  rw [Nat.add_sub_cancel_left, hl, Option.getD_some, List.take_left]

/-- The positions in a file are ordered like its bytes. -/
theorem position?_order (hp : f.position? m = some p) (hq : f.position? n = some q) (h : m < n) :
    p.line < q.line ∨ p.line = q.line ∧ p.column < q.column := by
  obtain ⟨i, head, tail, hi, rfl, rfl⟩ := position?_eq_some hp
  obtain ⟨j, head', tail', hj, rfl, rfl⟩ := position?_eq_some hq
  have hle : byteLength head' ≤ byteLength (head' ++ tail') := by simp
  rcases part_order hj hle h with hij | ⟨rfl, hbytes⟩
  · exact .inl (Nat.add_lt_add_left hij 1)
  · have hline : head ++ tail = head' ++ tail' := Option.some.inj (hi.symm.trans hj)
    have hpre : head <+: head' ++ tail' := hline ▸ List.prefix_append head tail
    exact .inr ⟨rfl, length_lt_of_byteLength_lt hpre (List.prefix_append head' tail') hbytes⟩

end SourceFile

/-! ## Files of a source -/

namespace Source

/-- The byte of the joined text where a file starts. -/
def start (s : Source) (i : Nat) : Nat := partStart (s.files.map (·.chars)) i

/-- The offset of the character in a column of a line of a file. -/
def offsetOf (s : Source) (i line column : Nat) : Nat :=
  s.start i + (s.files[i]?.map (·.offsetOf line column)).getD 0

/-- The offset is that of a byte of a file, or of the end of the file. -/
def LiesIn (s : Source) (offset i : Nat) : Prop := ∃ f, s.files[i]? = some f ∧
  s.start i ≤ offset ∧ offset ≤ s.start i + byteLength f.chars

/-- The offset lies in the file with number `i`, and `p` is the position of that byte of it. -/
structure Locates (s : Source) (offset i : Nat) (f : SourceFile) (p : Position) : Prop where
  file : s.files[i]? = some f
  start_le : s.start i ≤ offset
  le_stop : offset ≤ s.start i + byteLength f.chars
  position? : f.position? (offset - s.start i) = some p

variable {s : Source} {f g : SourceFile} {p q : Position} {i j m n offset : Nat}

theorem positionIn?_eq_some {files : List SourceFile} (h : positionIn? files offset = some p) :
    ∃ i f, (⟨files⟩ : Source).Locates offset i f p := by
  induction files generalizing offset with
  | nil => cases h
  | cons f files ih =>
    rw [positionIn?] at h
    split at h
    · next hle => exact ⟨0, f, rfl, Nat.zero_le _, by simpa [start] using hle, h⟩
    · obtain ⟨i, g, hg⟩ := ih h
      have hstart : (⟨f :: files⟩ : Source).start (i + 1) =
          byteLength f.chars + 1 + (⟨files⟩ : Source).start i := partStart_cons_succ ..
      obtain ⟨hfile, hle, hstop, hp⟩ := hg
      refine ⟨i + 1, g, hfile, by omega, by omega, ?_⟩
      rw [hstart, ← Nat.sub_sub]
      exact hp

theorem exists_locates (h : s.position? offset = some p) : ∃ i f, s.Locates offset i f p :=
  positionIn?_eq_some h

theorem getElem?_chars (h : s.files[i]? = some f) :
    (s.files.map (·.chars))[i]? = some f.chars := by
  rw [List.getElem?_map, h]
  rfl

theorem exists_around (h : s.files[i]? = some f) : ∃ above below,
    s.chars = above ++ f.chars ++ below ∧ Around above below ∧ byteLength above = s.start i := by
  obtain ⟨above, below, hjoin, haround, hstart, -⟩ := Text.exists_around (getElem?_chars h)
  exact ⟨above, below, hjoin, haround, hstart⟩

namespace Locates

theorem liesIn_iff (h : s.Locates offset i f p) : s.LiesIn offset j ↔ j = i := by
  refine ⟨?_, fun hj => hj ▸ ⟨f, h.file, h.start_le, h.le_stop⟩⟩
  rintro ⟨g, hg, hstart, hstop⟩
  have hle := h.start_le
  have hge := h.le_stop
  refine part_unique (m := offset - s.start j) (n := offset - s.start i) (getElem?_chars hg)
    (getElem?_chars h.file) (by omega) (by omega) ?_
  show s.start j + _ = s.start i + _
  omega

theorem offsetOf_eq (h : s.Locates offset i f p) : s.offsetOf i p.line p.column = offset := by
  have hle := h.start_le
  rw [offsetOf, h.file, Option.map_some, Option.getD_some, f.offsetOf_position? h.position?]
  omega

theorem order (h : s.Locates m i f p) (h' : s.Locates n j g q) (hlt : m < n) :
    i < j ∨ i = j ∧ (p.line < q.line ∨ p.line = q.line ∧ p.column < q.column) := by
  have hm := h.start_le
  have hn := h'.start_le
  have hstop := h'.le_stop
  have hord := part_order (i := i) (m := m - s.start i) (n := n - s.start j)
    (getElem?_chars h'.file) (by omega) (by
      show s.start i + _ < s.start j + _
      omega)
  rcases hord with hij | ⟨rfl, hbytes⟩
  · exact .inl hij
  · obtain rfl : f = g := Option.some.inj (h.file.symm.trans h'.file)
    exact .inr ⟨rfl, SourceFile.position?_order h.position? h'.position? hbytes⟩

end Locates

theorem positionIn?_append {files more : List SourceFile} (h : positionIn? files offset = some p) :
    positionIn? (files ++ more) offset = some p := by
  induction files generalizing offset with
  | nil => cases h
  | cons f files ih =>
    rw [List.cons_append, positionIn?]
    rw [positionIn?] at h
    split
    · next hle => rwa [if_pos hle] at h
    · next hgt =>
      rw [if_neg hgt] at h
      exact ih h

theorem foldl_push (s : Source) (more : List SourceFile) :
    more.foldl push s = ⟨s.files ++ more⟩ := by
  induction more generalizing s with
  | nil => simp
  | cons f more ih => rw [List.foldl_cons, ih, push, List.append_assoc]; rfl

theorem position_eq_ok_iff : s.position offset = .ok p ↔ s.position? offset = some p := by
  unfold position
  cases s.position? offset <;> simp

/-- Files are joined by line feeds, and an offset is shown as a place in the one file that it lies
in. Every boundary of the joined text can be shown, and nothing else; the place tells the offset,
places are ordered like offsets, and more files leave them as they are. -/
theorem position_exact (s : Source) :
    (∀ i f, s.files[i]? = some f → ∃ above below,
      s.chars = above ++ f.chars ++ below ∧ Around above below ∧ byteLength above = s.start i) ∧
    (∀ offset, (∃ p, s.position offset = .ok p) ↔
      s.files ≠ [] ∧ offset ≤ s.length ∧ Boundary offset s.chars) ∧
    (∀ offset p, s.position offset = .ok p → ∃ i f, s.files[i]? = some f ∧
      (∀ j, s.LiesIn offset j ↔ j = i) ∧
      (∃ above head tail below, f.Shows (offset - s.start i) p above head tail below) ∧
      s.offsetOf i p.line p.column = offset) ∧
    (∀ m n i j p q, s.position m = .ok p → s.position n = .ok q →
      s.LiesIn m i → s.LiesIn n j → m < n →
      i < j ∨ i = j ∧ (p.line < q.line ∨ p.line = q.line ∧ p.column < q.column)) ∧
    (∀ offset p (more : List SourceFile), s.position offset = .ok p →
      (more.foldl push s).position offset = .ok p) := by
  simp only [position_eq_ok_iff]
  refine ⟨fun i f => exists_around, fun offset => ?_, fun offset p hp => ?_, ?_,
    fun offset p more hp => ?_⟩
  · rw [← Option.isSome_iff_exists, position?_isSome_iff]
    exact and_congr_right fun _ => ⟨fun h => ⟨h.le, h⟩, And.right⟩
  · obtain ⟨i, f, h⟩ := exists_locates hp
    exact ⟨i, f, h.file, fun j => h.liesIn_iff, SourceFile.exists_shows h.position?, h.offsetOf_eq⟩
  · intro m n i j p q hp hq hi hj
    obtain ⟨i', f, h⟩ := exists_locates hp
    obtain ⟨j', g, h'⟩ := exists_locates hq
    obtain rfl := h.liesIn_iff.1 hi
    obtain rfl := h'.liesIn_iff.1 hj
    exact h.order h'
  · rw [foldl_push]
    exact positionIn?_append hp

end Source

end JayFrontEnd
