import JayFrontEnd.Proofs.Parsing.Respects
import JayFrontEnd.Proofs.Pattern.Front
import JayFrontEnd.Proofs.Text.Boundary

/-!
# Going forward

A parser goes neither back nor past the end of the input, unless it was there before. So a
repetition, which goes on only as long as its rounds use input, makes one round at most for each
piece of input that is left, and one more. `Parser.Rounds` says what it does with nothing to stop
it.
-/

namespace JayFrontEnd

/-- What stands at a cursor does not go past the end, unless the cursor does. -/
theorem Input.add_le_of_textFrom {input : Input} {n : Nat} {as rest : List Char}
    (h : input.textFrom n = as ++ rest) : n + Text.byteLength as ≤ max n input.length := by
  have hnil : as ++ rest = [] → n + Text.byteLength as ≤ max n input.length := by
    intro h
    obtain ⟨rfl, -⟩ := List.append_eq_nil_iff.1 h
    exact Nat.le_max_left ..
  cases input with
  | tokens ts => exact hnil h.symm
  | text cs =>
    cases hdrop : Text.dropBytes? n cs with
    | none => exact hnil (by simpa [textFrom, hdrop] using h.symm)
    | some left =>
      obtain ⟨before, rfl, rfl⟩ := Text.dropBytes?_eq_some_iff.1 hdrop
      obtain rfl : left = as ++ rest := by simpa [textFrom, hdrop] using h
      refine Nat.le_trans ?_ (Nat.le_max_right ..)
      simp only [length, Text.byteLength_append]
      omega

/-- How much input is left. -/
def Setting.left (c : Setting) (s : ParseState) : Nat := c.input.length - s.cursor

/-- From one state to the other the cursor has not gone back, nor past the end. -/
structure Setting.Ahead (c : Setting) (s t : ParseState) : Prop where
  le : s.cursor ≤ t.cursor
  le_max : t.cursor ≤ max s.cursor c.input.length

namespace Setting.Ahead

variable {c : Setting} {s t u : ParseState}

theorem of_eq (h : t.cursor = s.cursor) : c.Ahead s t :=
  ⟨Nat.le_of_eq h.symm, h ▸ Nat.le_max_left ..⟩

theorem trans (h : c.Ahead s t) (h' : c.Ahead t u) : c.Ahead s u where
  le := Nat.le_trans h.le h'.le
  le_max := Nat.le_trans h'.le_max (Nat.max_le.2 ⟨h.le_max, Nat.le_max_right ..⟩)

theorem congr (h : c.Ahead s t) (hu : u.cursor = t.cursor) : c.Ahead s u :=
  h.trans (of_eq hu)

theorem left_le (h : c.Ahead s t) : c.left t ≤ c.left s :=
  Nat.sub_le_sub_left h.le _

theorem left_lt (h : c.Ahead s t) (hmoved : t.cursor ≠ s.cursor) : c.left t < c.left s := by
  have hle := h.le
  have hmax := h.le_max
  unfold left
  omega

end Setting.Ahead

open Setting (Ahead)

/-- However it ends, the parser goes forward. -/
def Parser.Forward {α : Type} (c : Setting) (p : Parser α) : Prop :=
  ∀ ⦃s r t⦄, p c s = (r, t) → c.Ahead s t

/-- When it succeeds, the parser uses input. -/
def Parser.Uses {α : Type} (c : Setting) (p : Parser α) : Prop :=
  ∀ ⦃s a t⦄, p c s = (.ok a, t) → c.left t < c.left s

namespace Parser.Forward

variable {α β : Type} {p q : Parser α} {c : Setting}

theorem bind {f : α → Parser β} (hp : p.Forward c) (hf : ∀ a, (f a).Forward c) :
    (p >>= f).Forward c := by
  intro s r t h
  simp only [Bind.bind] at h
  rcases hrun : p c s with ⟨e | a, u⟩ <;> simp only [hrun] at h
  · cases h
    exact hp hrun
  · exact (hp hrun).trans (hf a h)

theorem restoring (hp : p.Forward c) : (Parser.restoring p).Forward c := by
  intro s r t h
  unfold Parser.restoring at h
  rcases hrun : p c s with ⟨(e | f) | a, u⟩ <;> simp only [hrun] at h <;> cases h
  · exact .of_eq rfl
  · exact hp hrun
  · exact hp hrun

theorem orElse (hp : p.Forward c) (hq : q.Forward c) : (Parser.orElse p q).Forward c := by
  intro s r t h
  unfold Parser.orElse at h
  rcases hrun : p c s with ⟨(e | f) | a, u⟩ <;> simp only [hrun] at h
  · have hback : c.Ahead s (u.moveTo s.cursor) := .of_eq rfl
    rcases hrun' : q c (u.moveTo s.cursor) with ⟨(e' | f) | a, v⟩ <;> simp only [hrun'] at h <;>
      cases h
    all_goals exact hback.trans (hq hrun')
  all_goals
    cases h
    exact hp hrun

theorem optional (hp : p.Forward c) : (Parser.optional p).Forward c := by
  intro s r t h
  unfold Parser.optional at h
  rcases hrun : p c s with ⟨(e | f) | a, u⟩ <;> simp only [hrun] at h <;> cases h
  · exact .of_eq rfl
  · exact hp hrun
  · exact hp hrun

theorem upTo (hp : p.Forward c) (n : Nat) : (Parser.upTo p n).Forward c := by
  induction n with
  | zero =>
    intro s r t h
    cases h
    exact .of_eq rfl
  | succ n ih =>
    intro s r t h
    unfold Parser.upTo at h
    rcases hrun : p c s with ⟨(e | f) | a, u⟩ <;> simp only [hrun] at h
    · cases h
      exact .of_eq rfl
    · cases h
      exact hp hrun
    · split at h
      · cases h
        exact hp hrun
      · rcases hrest : Parser.upTo p n c u with ⟨e | as, v⟩ <;> simp only [hrest] at h <;> cases h
        all_goals exact (hp hrun).trans (ih hrest)

theorem repeated (hp : p.Forward c) : (Parser.repeated p).Forward c := fun _ _ _ h => hp.upTo _ h

theorem many (hp : p.Forward c) : (Parser.many p).Forward c := by
  intro s r t h
  unfold Parser.many at h
  rcases hrun : Parser.repeated p c s with ⟨f | ⟨_ | ⟨a, as⟩, _ | e⟩, u⟩ <;>
    simp only [hrun] at h <;> cases h
  all_goals exact hp.repeated hrun

theorem labelled (label : String) (hp : p.Forward c) : (Parser.labelled label p).Forward c := by
  intro s r t h
  unfold Parser.labelled at h
  rcases hrun : p c s with ⟨(e | f) | a, u⟩ <;> simp only [hrun] at h <;> cases h
  · exact (hp hrun).congr rfl
  · exact hp hrun
  · exact hp hrun

theorem wrapped {p : Parser Parsed} (kind : String) (hp : p.Forward c) :
    (Parser.wrapped kind p).Forward c := by
  intro s r t h
  unfold Parser.wrapped at h
  rcases hrun : p c s with ⟨e | (v | n), u⟩ <;> simp only [hrun] at h <;> cases h
  all_goals exact hp hrun

theorem of_cursor (h : ∀ s, (p c s).2.cursor = s.cursor) : p.Forward c := by
  intro s r t hrun
  refine .of_eq ?_
  rw [← h s, hrun]

theorem importModule (module : String) (position : Nat) :
    (Parser.importModule module position).Forward c := by
  refine of_cursor fun s => ?_
  unfold Parser.importModule
  split
  · rfl
  · unfold ParseState.require
    split <;> rfl

theorem any (hp : p.Forward c) : (Parser.any p).Forward c :=
  bind (repeated hp) fun _ => of_cursor fun _ => rfl

theorem token (kind : String) : (Parser.token kind).Forward c := by
  intro s r t h
  unfold Parser.token at h
  split at h
  · cases h
    exact .of_eq rfl
  · next ts hts =>
    split at h
    · cases h
      exact .of_eq rfl
    · next x hx =>
      split at h <;> cases h
      · have hlt : s.cursor < c.input.length := by
          rw [hts]
          exact (List.getElem?_eq_some_iff.1 hx).1
        exact ⟨Nat.le_succ _, Nat.le_trans hlt (Nat.le_max_right ..)⟩
      · exact .of_eq rfl

theorem literal (text : String) : (Parser.literal text).Forward c := by
  intro s r t h
  unfold Parser.literal at h
  split at h
  · cases h
    exact .of_eq rfl
  · split at h <;> cases h
    · next hprefix =>
      obtain ⟨rest, hrest⟩ := List.isPrefixOf_iff_prefix.1 hprefix
      exact ⟨Nat.le_add_right .., Input.add_le_of_textFrom hrest.symm⟩
    · exact .of_eq rfl

theorem pattern (regex : Regex) : (Parser.pattern regex).Forward c := by
  intro s r t h
  unfold Parser.pattern at h
  split at h
  · cases h
    exact .of_eq rfl
  · split at h <;> cases h
    · exact .of_eq rfl
    · next m hm =>
      obtain ⟨as, has, hstop⟩ := regex.stop_of_search? (Option.filter_eq_some_iff.1 hm).1
      refine ⟨Nat.le_add_right .., ?_⟩
      simp only [ParseState.moveTo, hstop]
      exact Input.add_le_of_textFrom has

theorem respects (c : Setting) : Respects {} fun p _ => p.Forward c where
  pure _ := of_cursor fun _ => rfl
  bind := bind
  token := token
  literal := literal
  pattern := pattern
  restoring := restoring
  orElse := orElse
  optional := optional
  repeated := repeated
  many := many
  labelled := labelled
  wrapped := wrapped
  importModule _ := importModule
  fail _ := of_cursor fun _ => rfl
  failAt _ _ _ _ := of_cursor fun _ => rfl
  offset := of_cursor fun _ => rfl
  peek := of_cursor fun _ => rfl
  abort_left _ _ := of_cursor fun _ => rfl
  abort_right _ hp := hp

theorem applyWithin (g : Grammar) (fuel : Nat) (name : String) :
    (g.applyWithin fuel name).Forward c :=
  (respects c).applyWithin (fun _ script _ _ => script.within_all) fuel fuel trivial

variable {apply : String → Parser Node}

theorem firstOf (h : ∀ name, (apply name).Forward c) (atoms : List Atom) :
    (Parser.firstOf (Atom.attempts apply atoms)).Forward c :=
  @Respects.firstOf _ _ (respects c) apply apply (fun name _ => h name) atoms
    (Atom.allWithin_all atoms)

theorem run (h : ∀ name, (apply name).Forward c) (script : Script) : (script.run apply).Forward c :=
  @Respects.run _ _ (respects c) apply apply (fun name _ => h name) script script.within_all

end Parser.Forward

/-! ## Parsers that use input -/

namespace Parser.Uses

variable {α β : Type} {p q : Parser α} {c : Setting}

theorem bind {f : α → Parser β} (hp : p.Uses c) (hf : ∀ a, (f a).Forward c) :
    (p >>= f).Uses c := by
  intro s b t h
  simp only [Bind.bind] at h
  rcases hrun : p c s with ⟨e | a, u⟩ <;> simp only [hrun] at h
  · cases h
  · exact Nat.lt_of_le_of_lt (hf a h).left_le (hp hrun)

theorem restoring (hp : p.Uses c) : (Parser.restoring p).Uses c := by
  intro s a t h
  unfold Parser.restoring at h
  rcases hrun : p c s with ⟨(e | f) | b, u⟩ <;> simp only [hrun] at h <;> cases h
  exact hp hrun

theorem orElse (hp : p.Uses c) (hq : q.Uses c) : (Parser.orElse p q).Uses c := by
  intro s a t h
  unfold Parser.orElse at h
  rcases hrun : p c s with ⟨(e | f) | b, u⟩ <;> simp only [hrun] at h
  · rcases hrun' : q c (u.moveTo s.cursor) with ⟨(e' | f) | b, v⟩ <;> simp only [hrun'] at h <;>
      cases h
    have hlt : c.left t < c.left (u.moveTo s.cursor) := hq hrun'
    exact hlt
  · cases h
  · cases h
    exact hp hrun

theorem labelled (label : String) (hp : p.Uses c) : (Parser.labelled label p).Uses c := by
  intro s a t h
  unfold Parser.labelled at h
  rcases hrun : p c s with ⟨(e | f) | b, u⟩ <;> simp only [hrun] at h <;> cases h
  exact hp hrun

theorem wrapped {p : Parser Parsed} (kind : String) (hp : p.Uses c) :
    (Parser.wrapped kind p).Uses c := by
  intro s n t h
  unfold Parser.wrapped at h
  rcases hrun : p c s with ⟨e | (v | m), u⟩ <;> simp only [hrun] at h <;> cases h
  all_goals exact hp hrun

theorem abort (fault : Fault) : (Parser.abort (α := α) fault).Uses c := nofun

theorem token {ts : List Token} {hasModule? : Option (String → Bool)} (kind : String) :
    (Parser.token kind).Uses ⟨.tokens ts, hasModule?⟩ := by
  intro s n t h
  refine (Parser.Forward.token kind h).left_lt fun hcursor => ?_
  simp only [Parser.token] at h
  split at h
  · cases h
  · split at h <;> cases h
    exact Nat.succ_ne_self _ hcursor

end Parser.Uses

/-- The atom has no script of its own. -/
def Atom.plain : Atom → Bool
  | .inline _ _ => false
  | .named _ atom => atom.plain
  | _ => true

/-- The script starts with a choice among plain atoms. In the choice it asks for what may come
first, and later for other things. -/
def Script.Eager (first later : Requests) : Script → Prop
  | .one atoms next => atoms.all Atom.plain = true ∧ Atom.AllWithin first atoms ∧
      ∀ n, (next n).Within later
  | .offset next => ∀ i, (next i).Eager first later
  | _ => False

section Eager

variable {first later : Requests} {apply : String → Parser Node} {ts : List Token}
  {hasModule? : Option (String → Bool)}
  (hrule : ∀ name, first.rule name → (apply name).Uses ⟨.tokens ts, hasModule?⟩)

include hrule

theorem Atom.uses_attempt : ∀ a : Atom, a.plain = true → a.Within first →
    (a.attempt apply).Uses ⟨.tokens ts, hasModule?⟩
  | .token kind, _, _ => .token kind
  | .literal _, _, _ | .pattern _, _, _ => .abort _
  | .rule name, _, ha => hrule name ha
  | .named label atom, hplain, ha => (Atom.uses_attempt atom hplain ha).labelled label

theorem Atom.uses_firstOf : ∀ as : List Atom, as.all Atom.plain = true → Atom.AllWithin first as →
    (Parser.firstOf (Atom.attempts apply as)).Uses ⟨.tokens ts, hasModule?⟩
  | [], _, _ => .abort _
  | [a], hplain, ha => by
    rw [List.all_cons, Bool.and_eq_true_iff] at hplain
    exact (Atom.uses_attempt hrule a hplain.1 ha.1).restoring
  | a :: b :: as, hplain, ha => by
    rw [List.all_cons, Bool.and_eq_true_iff] at hplain
    exact (Atom.uses_attempt hrule a hplain.1 ha.1).orElse
      (Atom.uses_firstOf (b :: as) hplain.2 ha.2)

/-- What such a script makes uses input. -/
theorem Script.Eager.uses (hforward : ∀ name, (apply name).Forward ⟨.tokens ts, hasModule?⟩) :
    ∀ script : Script, script.Eager first later →
    (script.run apply).Uses ⟨.tokens ts, hasModule?⟩
  | .one atoms next, ⟨hplain, hfirst, _⟩ =>
    (Atom.uses_firstOf hrule atoms hplain hfirst).bind fun n => .run hforward (next n)
  | .offset next, h => fun _ _ _ hrun => Script.Eager.uses hforward (next _) (h _) hrun

end Eager

/-! ## Repetition -/

namespace Parser

variable {α : Type}

/-- What a repetition from a state comes to, after so many rounds: it ends with a round that fails
or uses no input. -/
inductive Rounds (p : Parser α) (c : Setting) : ParseState → Nat →
    Except Failure (List α × Option ParseError) × ParseState → Prop where
  | fails {s t : ParseState} {e : ParseError} : p c s = (.error (.backtrack e), t) →
      Rounds p c s 1 (.ok ([], some e), t.moveTo s.cursor)
  | aborts {s t : ParseState} {f : Fault} : p c s = (.error (.fatal f), t) →
      Rounds p c s 1 (.error (.fatal f), t)
  | stays {s t : ParseState} {a : α} : p c s = (.ok a, t) → t.cursor = s.cursor →
      Rounds p c s 1 (.ok ([a], none), t)
  | goesOn {s t u : ParseState} {a : α} {k : Nat} {r : Except Failure _} : p c s = (.ok a, t) →
      t.cursor ≠ s.cursor → Rounds p c t k (r, u) →
      Rounds p c s (k + 1) (r.map fun rest => (a :: rest.1, rest.2), u)

theorem Forward.rounds_upTo {p : Parser α} {c : Setting} (hp : p.Forward c) {count : Nat}
    {s : ParseState} (hcount : c.left s < count) :
    ∃ k ≤ c.left s + 1, p.Rounds c s k (Parser.upTo p count c s) := by
  induction count generalizing s with
  | zero => cases hcount
  | succ count ih =>
    unfold Parser.upTo
    rcases hrun : p c s with ⟨(e | f) | a, t⟩
    · exact ⟨1, Nat.le_add_left .., .fails hrun⟩
    · exact ⟨1, Nat.le_add_left .., .aborts hrun⟩
    · by_cases hcursor : t.cursor = s.cursor
      · simp only [if_pos hcursor]
        exact ⟨1, Nat.le_add_left .., .stays hrun hcursor⟩
      · have hlt := (hp hrun).left_lt hcursor
        obtain ⟨k, hk, hrounds⟩ := ih (s := t) (by omega)
        simp only [if_neg hcursor]
        refine ⟨k + 1, by omega, ?_⟩
        rcases hrest : Parser.upTo p count c t with ⟨e | as, u⟩
        all_goals
          rw [hrest] at hrounds
          exact .goesOn hrun hcursor hrounds

/-- A repetition makes one round at most for each piece of input left, and one more. -/
theorem Forward.rounds_repeated {p : Parser α} {c : Setting} (hp : p.Forward c) (s : ParseState) :
    ∃ k ≤ c.left s + 1, p.Rounds c s k (Parser.repeated p c s) :=
  hp.rounds_upTo (Nat.lt_succ_self _)

end Parser

end JayFrontEnd
