import JayFrontEnd.Proofs.Pattern.Matches

/-!
# Where a pattern leads

Which places a pattern matches between does not hang on what groups have taken before.
`Pattern.Reaches` leaves the groups out; its rules, one for each way to make a pattern, say what it
takes to get from one place to another.
-/

namespace JayFrontEnd

/-- One step for each item of a list, in the order of the list. -/
def InTurn {α β : Type} (R : α → β → β → Prop) : List α → β → β → Prop
  | [], x, y => y = x
  | a :: as, x, y => ∃ z, R a x z ∧ InTurn R as z y

theorem inTurn_append {α β : Type} {R : α → β → β → Prop} {as bs : List α} {x y : β} :
    InTurn R (as ++ bs) x y ↔ ∃ z, InTurn R as x z ∧ InTurn R bs z y := by
  induction as generalizing x with
  | nil => simp [InTurn]
  | cons a as ih =>
    simp only [List.cons_append, InTurn, ih]
    constructor
    · rintro ⟨w, hw, z, hz, hy⟩
      exact ⟨z, ⟨w, hw, hz⟩, hy⟩
    · rintro ⟨z, ⟨w, hw, hz⟩, hy⟩
      exact ⟨w, hw, z, hz, hy⟩

@[simp] theorem inTurn_singleton {α β : Type} {R : α → β → β → Prop} {a : α} {x y : β} :
    InTurn R [a] x y ↔ R a x y := by
  simp [InTurn]

namespace Pattern

variable {p q : Pattern} {s t : Place} {gs hs : Groups}

/-- The pattern matches from one place to the other. -/
def Reaches (p : Pattern) (s t : Place) : Prop := ∃ gs hs, p.Matches (s, gs) (t, hs)

theorem Matches.reaches (h : p.Matches (s, gs) (t, hs)) : p.Reaches s t := ⟨gs, hs, h⟩

theorem turns_reaches {count : Nat} {x y : Place × Groups} (h : Turns p.Matches count x y) :
    Turns p.Reaches count x.1 y.1 := by
  induction count generalizing x with
  | zero => exact congrArg Prod.fst h
  | succ count ih =>
    obtain ⟨z, hxz, h⟩ := h
    exact ⟨z.1, hxz.reaches, ih h⟩

theorem exists_turns {count : Nat}
    (hp : ∀ {s t}, p.Reaches s t → ∀ gs, ∃ hs, p.Matches (s, gs) (t, hs))
    (h : Turns p.Reaches count s t) (gs : Groups) :
    ∃ hs, Turns p.Matches count (s, gs) (t, hs) := by
  induction count generalizing s gs with
  | zero =>
    cases h
    exact ⟨gs, rfl⟩
  | succ count ih =>
    obtain ⟨u, hsu, h⟩ := h
    obtain ⟨is, his⟩ := hp hsu gs
    obtain ⟨hs, h⟩ := ih h is
    exact ⟨hs, (u, is), his, h⟩

/-- A pattern leads to the same places whatever groups have taken before. -/
theorem Reaches.exists_matches (h : p.Reaches s t) (gs : Groups) :
    ∃ hs, p.Matches (s, gs) (t, hs) := by
  induction p generalizing s t gs with
  | empty =>
    obtain ⟨_, _, h⟩ := h
    cases h
    exact ⟨gs, rfl⟩
  | text cs =>
    obtain ⟨_, _, hafter, _⟩ := h
    exact ⟨gs, hafter, rfl⟩
  | one k =>
    obtain ⟨_, _, c, hc, hafter, _⟩ := h
    exact ⟨gs, c, hc, hafter, rfl⟩
  | check a =>
    obtain ⟨_, _, ha, h⟩ := h
    cases h
    exact ⟨gs, ha, rfl⟩
  | group i p ih =>
    obtain ⟨_, _, is, h, _⟩ := h
    obtain ⟨hs, h⟩ := ih h.reaches gs
    exact ⟨(i, s.upTo t) :: hs, hs, h, rfl⟩
  | seq p q ihp ihq =>
    obtain ⟨_, _, z, hp, hq⟩ := h
    obtain ⟨is, hp⟩ := ihp hp.reaches gs
    obtain ⟨hs, hq⟩ := ihq hq.reaches is
    exact ⟨hs, _, hp, hq⟩
  | alt p q ihp ihq =>
    obtain ⟨_, _, h | h⟩ := h
    · exact (ihp h.reaches gs).imp fun _ => .inl
    · exact (ihq h.reaches gs).imp fun _ => .inr
  | repeated least most greedy p ih =>
    obtain ⟨_, _, count, hleast, hmost, h⟩ := h
    obtain ⟨hs, h⟩ := exists_turns (fun h gs => ih h gs) (turns_reaches h :) gs
    exact ⟨hs, count, hleast, hmost, h⟩

/-! ## The rules -/

@[simp] theorem reaches_empty : empty.Reaches s t ↔ t = s := by
  constructor
  · rintro ⟨_, _, h⟩
    exact congrArg Prod.fst h
  · rintro rfl
    exact ⟨[], [], rfl⟩

@[simp] theorem reaches_text {cs : List Char} :
    (text cs).Reaches s t ↔ s.afterText? cs = some t := by
  constructor
  · rintro ⟨_, _, h, _⟩
    exact h
  · exact fun h => ⟨[], [], h, rfl⟩

@[simp] theorem reaches_one {k : CharSet} :
    (one k).Reaches s t ↔ ∃ c, k.contains c = true ∧ s.afterText? [c] = some t := by
  constructor
  · rintro ⟨_, _, c, hc, h, _⟩
    exact ⟨c, hc, h⟩
  · rintro ⟨c, hc, h⟩
    exact ⟨[], [], c, hc, h, rfl⟩

@[simp] theorem reaches_check {a : Assertion} :
    (check a).Reaches s t ↔ a.holds s = true ∧ t = s := by
  constructor
  · rintro ⟨_, _, ha, h⟩
    exact ⟨ha, congrArg Prod.fst h⟩
  · rintro ⟨ha, rfl⟩
    exact ⟨[], [], ha, rfl⟩

@[simp] theorem reaches_group {i : Nat} : (group i p).Reaches s t ↔ p.Reaches s t := by
  constructor
  · rintro ⟨_, _, _, h, _⟩
    exact h.reaches
  · rintro ⟨gs, hs, h⟩
    exact ⟨gs, (i, s.upTo t) :: hs, hs, h, rfl⟩

@[simp] theorem reaches_seq : (seq p q).Reaches s t ↔ ∃ u, p.Reaches s u ∧ q.Reaches u t := by
  constructor
  · rintro ⟨_, _, z, hp, hq⟩
    exact ⟨z.1, hp.reaches, hq.reaches⟩
  · rintro ⟨u, ⟨_, is, hp⟩, hq⟩
    obtain ⟨hs, hq⟩ := hq.exists_matches is
    exact ⟨_, hs, (u, is), hp, hq⟩

@[simp] theorem reaches_alt : (alt p q).Reaches s t ↔ p.Reaches s t ∨ q.Reaches s t := by
  constructor
  · rintro ⟨_, _, h | h⟩
    · exact .inl h.reaches
    · exact .inr h.reaches
  · rintro (⟨_, _, h⟩ | ⟨_, _, h⟩)
    · exact ⟨_, _, .inl h⟩
    · exact ⟨_, _, .inr h⟩

theorem reaches_repeated {least : Nat} {most : Option Nat} {greedy : Bool} :
    (repeated least most greedy p).Reaches s t ↔
      ∃ count, least ≤ count ∧ (∀ m ∈ most, count ≤ max least m) ∧ Turns p.Reaches count s t := by
  constructor
  · rintro ⟨_, _, count, hleast, hmost, h⟩
    exact ⟨count, hleast, hmost, turns_reaches h⟩
  · rintro ⟨count, hleast, hmost, h⟩
    obtain ⟨hs, h⟩ := exists_turns Reaches.exists_matches h []
    exact ⟨[], hs, count, hleast, hmost, h⟩

end Pattern

end JayFrontEnd
