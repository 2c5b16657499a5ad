import JayFrontEnd.Source

/-!
# Character boundaries

`Boundary n cs` says that the first `n` bytes of a text are whole characters of it. These are the
offsets at which a text can be cut, and those for which a source has a position: joining lines, or
files, by a line feed leaves the boundaries of each of them where they are.
-/

namespace JayFrontEnd

namespace Text

/-- The first `n` bytes of the text are whole characters. -/
def Boundary (n : Nat) (cs : List Char) : Prop := ∃ as, as <+: cs ∧ byteLength as = n

variable {n : Nat} {as bs cs : List Char}

namespace Boundary

theorem zero (cs : List Char) : Boundary 0 cs := ⟨[], List.nil_prefix, rfl⟩

theorem of_append (as bs : List Char) : Boundary (byteLength as) (as ++ bs) :=
  ⟨as, List.prefix_append .., rfl⟩

theorem full (cs : List Char) : Boundary (byteLength cs) cs := ⟨cs, List.prefix_rfl, rfl⟩

theorem le (h : Boundary n cs) : n ≤ byteLength cs := by
  obtain ⟨as, ⟨bs, rfl⟩, rfl⟩ := h
  rw [byteLength_append]
  omega

theorem nil_iff : Boundary n [] ↔ n = 0 := by
  refine ⟨fun h => Nat.le_zero.1 h.le, ?_⟩
  rintro rfl
  exact zero []

theorem cons_iff {c : Char} :
    Boundary n (c :: cs) ↔ n = 0 ∨ c.utf8Size ≤ n ∧ Boundary (n - c.utf8Size) cs := by
  constructor
  · rintro ⟨as, has, rfl⟩
    cases as with
    | nil => exact .inl rfl
    | cons d as =>
      obtain ⟨rfl, htail⟩ := List.cons_prefix_cons.1 has
      exact .inr ⟨by simp, as, htail, by simp⟩
  · rintro (rfl | ⟨hc, as, has, hn⟩)
    · exact zero _
    · refine ⟨c :: as, List.cons_prefix_cons.2 ⟨rfl, has⟩, ?_⟩
      rw [byteLength_cons]
      omega

end Boundary

theorem takeBytes?_isSome_iff : (takeBytes? n cs).isSome ↔ Boundary n cs := by
  induction cs generalizing n with
  | nil => cases n <;> simp [takeBytes?, Boundary.nil_iff]
  | cons c cs ih =>
    have hc := c.utf8Size_pos
    cases n with
    | zero => simp [takeBytes?, Boundary.zero]
    | succ n =>
      rw [takeBytes?, Boundary.cons_iff]
      split
      · next h => simp [ih, h]
      · next h => simp [h]

theorem byteLength_eq_zero : byteLength cs = 0 ↔ cs = [] := by
  cases cs with
  | nil => simp
  | cons c cs =>
    have hc := c.utf8Size_pos
    simp
    omega

theorem dropBytes?_eq_some_iff :
    dropBytes? n cs = some bs ↔ ∃ as, cs = as ++ bs ∧ byteLength as = n := by
  induction cs generalizing n with
  | nil => cases n <;> cases bs <;> simp [dropBytes?, byteLength_eq_zero]
  | cons c cs ih =>
    have hc := c.utf8Size_pos
    cases n with
    | zero => simp [dropBytes?, byteLength_eq_zero]
    | succ n =>
      rw [dropBytes?]
      constructor
      · intro h
        split at h
        · obtain ⟨as, rfl, hlen⟩ := ih.1 h
          exact ⟨c :: as, rfl, by rw [byteLength_cons]; omega⟩
        · cases h
      · rintro ⟨as, has, hlen⟩
        obtain ⟨rfl, rfl⟩ | ⟨as, rfl, rfl⟩ := List.cons_eq_append_iff.1 has
        · cases hlen
        · rw [byteLength_cons] at hlen
          rw [if_pos (by omega)]
          exact ih.2 ⟨as, rfl, by omega⟩

theorem dropBytes?_isSome_iff : (dropBytes? n cs).isSome ↔ Boundary n cs := by
  rw [Option.isSome_iff_exists]
  simp only [dropBytes?_eq_some_iff]
  constructor
  · rintro ⟨bs, as, rfl, rfl⟩
    exact .of_append as bs
  · rintro ⟨as, ⟨bs, rfl⟩, rfl⟩
    exact ⟨bs, as, rfl, rfl⟩

theorem Boundary.joined_iff : Boundary n (as ++ '\n' :: bs) ↔
    if n ≤ byteLength as then Boundary n as else Boundary (n - (byteLength as + 1)) bs := by
  induction as generalizing n with
  | nil =>
    have hsize : ('\n').utf8Size = 1 := rfl
    rw [List.nil_append, cons_iff, nil_iff, hsize]
    by_cases hn : n = 0
    · simp [hn]
    · simp [hn, Nat.one_le_iff_ne_zero]
  | cons c as ih =>
    have hc := c.utf8Size_pos
    rw [List.cons_append, cons_iff, cons_iff, ih, byteLength_cons]
    by_cases hn : n = 0
    · simp [hn]
    · by_cases hle : c.utf8Size ≤ n
      · have hiff : n - c.utf8Size ≤ byteLength as ↔ n ≤ c.utf8Size + byteLength as := by omega
        have hsub : n - c.utf8Size - (byteLength as + 1) =
            n - (c.utf8Size + byteLength as + 1) := by omega
        simp [hn, hle, hiff, hsub]
      · have hlt : n ≤ c.utf8Size + byteLength as := by omega
        simp [hn, hle, hlt]

theorem split_ne_nil (separator : Char) (cs : List Char) : split separator cs ≠ [] := by
  cases cs with
  | nil => exact List.cons_ne_nil _ _
  | cons c cs =>
    rw [split]
    split
    · exact List.cons_ne_nil _ _
    · split <;> exact List.cons_ne_nil _ _

theorem intercalate_split (separator : Char) (cs : List Char) :
    [separator].intercalate (split separator cs) = cs := by
  induction cs with
  | nil => rfl
  | cons c cs ih =>
    obtain ⟨part, parts, hparts⟩ := List.exists_cons_of_ne_nil (split_ne_nil separator cs)
    rw [split, hparts]
    rw [hparts] at ih
    split
    · next hc =>
      subst hc
      rw [← ih]
      rfl
    · rw [← ih]
      cases parts <;> rfl

end Text

open Text

/-- The first of some parts of a text that are joined by line feeds, and the others. -/
theorem intercalate_cons_cons (as bs : List Char) (parts : List (List Char)) :
    ['\n'].intercalate (as :: bs :: parts) = as ++ '\n' :: ['\n'].intercalate (bs :: parts) := rfl

theorem SourceFile.lineAt?_isSome_iff {line n : Nat} {ls : List (List Char)} (hls : ls ≠ []) :
    (lineAt? line n ls).isSome ↔ Boundary n (['\n'].intercalate ls) := by
  induction ls generalizing line n with
  | nil => cases hls rfl
  | cons l ls ih =>
    rw [lineAt?]
    cases ls with
    | nil =>
      have hone : ['\n'].intercalate [l] = l := by simp [List.intercalate]
      rw [hone]
      split
      · simp [takeBytes?_isSome_iff]
      · next h =>
        have hb : ¬Boundary n l := fun hb => h hb.le
        simp [lineAt?, hb]
    | cons l' ls =>
      rw [intercalate_cons_cons, Boundary.joined_iff]
      split
      · simp [takeBytes?_isSome_iff]
      · exact ih (List.cons_ne_nil _ _)

theorem SourceFile.position?_isSome_iff {f : SourceFile} {n : Nat} :
    (f.position? n).isSome ↔ Boundary n f.chars := by
  have hlines : Text.lines f.chars ≠ [] := split_ne_nil '\n' f.chars
  rw [position?, Option.isSome_map, lineAt?_isSome_iff hlines, Text.lines, intercalate_split]

/-- A source has positions for the boundaries of its text, if it has any file. -/
theorem Source.position?_isSome_iff {s : Source} {offset : Nat} :
    (s.position? offset).isSome ↔ s.files ≠ [] ∧ Boundary offset s.chars := by
  obtain ⟨files⟩ := s
  show (positionIn? files offset).isSome ↔
    files ≠ [] ∧ Boundary offset (['\n'].intercalate (files.map (·.chars)))
  induction files generalizing offset with
  | nil => simp [positionIn?]
  | cons f files ih =>
    rw [positionIn?]
    cases files with
    | nil =>
      have hone : ['\n'].intercalate ([f].map (·.chars)) = f.chars := by simp [List.intercalate]
      rw [hone]
      split
      · simp [SourceFile.position?_isSome_iff]
      · next h =>
        have hb : ¬Boundary offset f.chars := fun hb => h hb.le
        simp [positionIn?, hb]
    | cons g files =>
      simp only [List.map_cons, intercalate_cons_cons, Boundary.joined_iff]
      split
      · simp [SourceFile.position?_isSome_iff]
      · rw [ih]
        simp

end JayFrontEnd
