import JayFrontEnd.Proofs.Parsing.Discipline
import JayFrontEnd.Proofs.Parsing.Forward

/-!
# Rules inside rules

A script that is run applies rules, on ways that are given up as well as on the one it takes.
`Script.Calls` says to which states it applies which rules. What the run comes to depends on nothing
else: with another way to apply rules that does the same at these states, it comes to the same.
-/

namespace JayFrontEnd

/-- When the parser is repeated from the one state, a round starts at the other. -/
inductive Parser.Round {α : Type} (p : Parser α) (c : Setting) :
    ParseState → ParseState → Prop where
  | first {s : ParseState} : Round p c s s
  | later {s t u : ParseState} {a : α} : p c s = (.ok a, t) → t.cursor ≠ s.cursor →
      Round p c t u → Round p c s u

/-! ## What a run applies -/

section Calls

variable (apply : String → Parser Node) (c : Setting)

mutual

/-- An attempt at the atom from the state applies the rule to the other state. -/
def Atom.Calls : Atom → ParseState → String × ParseState → Prop
  | .rule name, s, x => x = (name, s)
  | .inline _ script, s, x => script.Calls s x
  | .named _ atom, s, x => atom.Calls s x
  | .token _, _, _ | .literal _, _, _ | .pattern _, _, _ => False

def Atom.ChoiceCalls : List Atom → ParseState → String × ParseState → Prop
  | [], _, _ => False
  | a :: as, s, x => a.Calls s x ∨ ∃ e t, a.attempt apply c s = (.error (.backtrack e), t) ∧
      Atom.ChoiceCalls as (t.moveTo s.cursor) x

def Script.Calls : Script → ParseState → String × ParseState → Prop
  | .one atoms next, s, x => Atom.ChoiceCalls atoms s x ∨
      ∃ n t, Parser.firstOf (Atom.attempts apply atoms) c s = (.ok n, t) ∧ (next n).Calls t x
  | .opt atoms next, s, x => Atom.ChoiceCalls atoms s x ∨
      ∃ n t, Parser.optional (Parser.firstOf (Atom.attempts apply atoms)) c s = (.ok n, t) ∧
        (next n).Calls t x
  | .any atoms next, s, x =>
      (∃ u, (Parser.firstOf (Atom.attempts apply atoms)).Round c s u ∧
        Atom.ChoiceCalls atoms u x) ∨
      ∃ ns t, Parser.any (Parser.firstOf (Atom.attempts apply atoms)) c s = (.ok ns, t) ∧
        (next ns).Calls t x
  | .many atoms next, s, x =>
      (∃ u, (Parser.firstOf (Atom.attempts apply atoms)).Round c s u ∧
        Atom.ChoiceCalls atoms u x) ∨
      ∃ ns t, Parser.many (Parser.firstOf (Atom.attempts apply atoms)) c s = (.ok ns, t) ∧
        (next ns).Calls t x
  | .importModule module position next, s, x =>
      ∃ t, Parser.importModule module position c s = (.ok (), t) ∧ next.Calls t x
  | .offset next, s, x => (next (c.input.offset s.cursor)).Calls s x
  | .peek next, s, x => (next (c.input.token? s.cursor)).Calls s x
  | .done _, _, _ | .fail _, _, _ | .failAt _ _, _, _ | .abort _, _, _ => False

end

end Calls

theorem Grammar.Applies.forward {g : Grammar} {c : Setting} {apply : String → Parser Node}
    (happly : g.Applies c apply) (name : String) : (apply name).Forward c := by
  intro s r t hrun
  obtain ⟨fuel, hfuel⟩ := happly name
  rw [hfuel] at hrun
  exact Parser.Forward.applyWithin g fuel name hrun

/-- A rule, applied to a state with whatever fuel, applies another one. -/
def Grammar.Nests (g : Grammar) (c : Setting) (x y : String × ParseState) : Prop :=
  ∃ apply script, g.Applies c apply ∧ g.rule? x.1 = some script ∧ script.Calls apply c x.2 y

/-! ## What a run depends on -/

namespace Parser

variable {α β : Type} {p p' q q' : Parser α} {c : Setting} {s : ParseState}

theorem bind_congr {f f' : α → Parser β} (h : p c s = p' c s)
    (hf : ∀ a t, p c s = (.ok a, t) → f a c t = f' a c t) : (p >>= f) c s = (p' >>= f') c s := by
  simp only [Bind.bind, ← h]
  rcases hrun : p c s with ⟨e | a, t⟩
  · rfl
  · exact hf a t hrun

theorem restoring_congr (h : p c s = p' c s) :
    Parser.restoring p c s = Parser.restoring p' c s := by
  simp only [Parser.restoring, h]

theorem optional_congr (h : p c s = p' c s) :
    Parser.optional p c s = Parser.optional p' c s := by
  simp only [Parser.optional, h]

theorem labelled_congr (label : String) (h : p c s = p' c s) :
    Parser.labelled label p c s = Parser.labelled label p' c s := by
  simp only [Parser.labelled, h]

theorem wrapped_congr {p p' : Parser Parsed} (kind : String) (h : p c s = p' c s) :
    Parser.wrapped kind p c s = Parser.wrapped kind p' c s := by
  simp only [Parser.wrapped, h]

theorem orElse_congr (h : p c s = p' c s)
    (hq : ∀ e t, p c s = (.error (.backtrack e), t) →
      q c (t.moveTo s.cursor) = q' c (t.moveTo s.cursor)) :
    Parser.orElse p q c s = Parser.orElse p' q' c s := by
  simp only [Parser.orElse, ← h]
  rcases hrun : p c s with ⟨(e | f) | a, t⟩
  · simp only [hq e t hrun]
  · rfl
  · rfl

theorem repeated_congr (h : ∀ u, p.Round c s u → p c u = p' c u) :
    Parser.repeated p c s = Parser.repeated p' c s := by
  unfold Parser.repeated
  generalize c.input.length - s.cursor + 1 = count
  induction count generalizing s with
  | zero => rfl
  | succ count ih =>
    simp only [Parser.upTo, ← h s .first]
    rcases hrun : p c s with ⟨(e | f) | a, t⟩
    · rfl
    · rfl
    · by_cases hcursor : t.cursor = s.cursor
      · simp only [if_pos hcursor]
      · simp only [if_neg hcursor, ih fun u hu => h u (.later hrun hcursor hu)]

theorem any_congr (h : ∀ u, p.Round c s u → p c u = p' c u) :
    Parser.any p c s = Parser.any p' c s :=
  bind_congr (repeated_congr h) fun _ _ _ => rfl

theorem many_congr (h : ∀ u, p.Round c s u → p c u = p' c u) :
    Parser.many p c s = Parser.many p' c s := by
  simp only [Parser.many, repeated_congr h]

end Parser

section Congruence

variable {apply apply' : String → Parser Node} {c : Setting}

mutual

theorem Atom.attempt_congr : ∀ (a : Atom) {s : ParseState},
    (∀ x, a.Calls apply c s x → apply x.1 c x.2 = apply' x.1 c x.2) →
    a.attempt apply c s = a.attempt apply' c s
  | .rule name, s, h => h (name, s) rfl
  | .inline kind script, _, h => Parser.wrapped_congr kind (Script.run_congr script h)
  | .named label atom, _, h => Parser.labelled_congr label (Atom.attempt_congr atom h)
  | .token _, _, _ | .literal _, _, _ | .pattern _, _, _ => rfl

theorem Atom.firstOf_congr : ∀ (as : List Atom) {s : ParseState},
    (∀ x, Atom.ChoiceCalls apply c as s x → apply x.1 c x.2 = apply' x.1 c x.2) →
    Parser.firstOf (Atom.attempts apply as) c s = Parser.firstOf (Atom.attempts apply' as) c s
  | [], _, _ => rfl
  | [a], _, h => Parser.restoring_congr (Atom.attempt_congr a fun x hx => h x (.inl hx))
  | a :: b :: as, _, h =>
    Parser.orElse_congr (Atom.attempt_congr a fun x hx => h x (.inl hx)) fun e t ht =>
      Atom.firstOf_congr (b :: as) fun x hx => h x (.inr ⟨e, t, ht, hx⟩)

theorem Script.run_congr : ∀ (script : Script) {s : ParseState},
    (∀ x, script.Calls apply c s x → apply x.1 c x.2 = apply' x.1 c x.2) →
    script.run apply c s = script.run apply' c s
  | .done _, _, _ | .fail _, _, _ | .failAt _ _, _, _ | .abort _, _, _ => rfl
  | .one atoms next, _, h =>
    Parser.bind_congr (Atom.firstOf_congr atoms fun x hx => h x (.inl hx)) fun n t ht =>
      Script.run_congr (next n) fun x hx => h x (.inr ⟨n, t, ht, hx⟩)
  | .opt atoms next, _, h =>
    Parser.bind_congr
      (Parser.optional_congr (Atom.firstOf_congr atoms fun x hx => h x (.inl hx))) fun n t ht =>
      Script.run_congr (next n) fun x hx => h x (.inr ⟨n, t, ht, hx⟩)
  | .any atoms next, _, h =>
    Parser.bind_congr
      (Parser.any_congr fun u hu => Atom.firstOf_congr atoms fun x hx => h x (.inl ⟨u, hu, hx⟩))
      fun ns t ht => Script.run_congr (next ns) fun x hx => h x (.inr ⟨ns, t, ht, hx⟩)
  | .many atoms next, _, h =>
    Parser.bind_congr
      (Parser.many_congr fun u hu => Atom.firstOf_congr atoms fun x hx => h x (.inl ⟨u, hu, hx⟩))
      fun ns t ht => Script.run_congr (next ns) fun x hx => h x (.inr ⟨ns, t, ht, hx⟩)
  | .importModule _ _ next, _, h =>
    Parser.bind_congr rfl fun _ t ht => Script.run_congr next fun x hx => h x ⟨t, ht, hx⟩
  | .offset next, _, h => Script.run_congr (next _) h
  | .peek next, _, h => Script.run_congr (next _) h

end

end Congruence

/-! ## Where rules are applied -/

section Asked

variable {A : Requests} {apply : String → Parser Node} {c : Setting} {s t u : ParseState}
  {x : String × ParseState}

theorem Parser.Round.ahead {α : Type} {p : Parser α} (h : p.Round c s u) (hp : p.Forward c) :
    c.Ahead s u := by
  induction h with
  | first => exact .of_eq rfl
  | later hrun _ _ ih => exact (hp hrun).trans ih

/-- The rule may be asked for, at a state further on. -/
def Asked (A : Requests) (c : Setting) (s : ParseState) (x : String × ParseState) : Prop :=
  A.rule x.1 ∧ c.Ahead s x.2

theorem Asked.after (h : Asked A c t x) (hst : c.Ahead s t) : Asked A c s x :=
  ⟨h.1, hst.trans h.2⟩

mutual

theorem Atom.asked_of_calls
    (hchoice : ∀ atoms, (Parser.firstOf (Atom.attempts apply atoms)).Forward c) :
    ∀ (a : Atom) {s : ParseState}, a.Within A → a.Calls apply c s x → Asked A c s x
  | .rule _, _, ha, h => h ▸ ⟨ha, .of_eq rfl⟩
  | .inline _ script, _, ha, h => Script.asked_of_calls hchoice script ha h
  | .named _ atom, _, ha, h => Atom.asked_of_calls hchoice atom ha h
  | .token _, _, _, h | .literal _, _, _, h | .pattern _, _, _, h => h.elim

theorem Atom.asked_of_choiceCalls
    (hchoice : ∀ atoms, (Parser.firstOf (Atom.attempts apply atoms)).Forward c) :
    ∀ (as : List Atom) {s : ParseState}, Atom.AllWithin A as →
    Atom.ChoiceCalls apply c as s x → Asked A c s x
  | [], _, _, h => h.elim
  | a :: as, _, ha, h => by
    rcases h with h | ⟨e, t, -, h⟩
    · exact Atom.asked_of_calls hchoice a ha.1 h
    · exact (Atom.asked_of_choiceCalls hchoice as ha.2 h).after (.of_eq rfl)

/-- A script that is run applies only rules that it asks for, and none behind the start. -/
theorem Script.asked_of_calls
    (hchoice : ∀ atoms, (Parser.firstOf (Atom.attempts apply atoms)).Forward c) :
    ∀ (script : Script) {s : ParseState}, script.Within A → script.Calls apply c s x →
    Asked A c s x
  | .done _, _, _, h | .fail _, _, _, h | .failAt _ _, _, _, h | .abort _, _, _, h => h.elim
  | .one atoms next, _, ha, h => by
    rcases h with h | ⟨n, t, hrun, h⟩
    · exact Atom.asked_of_choiceCalls hchoice atoms ha.1 h
    · exact (Script.asked_of_calls hchoice (next n) (ha.2 n) h).after (hchoice atoms hrun)
  | .opt atoms next, _, ha, h => by
    rcases h with h | ⟨n, t, hrun, h⟩
    · exact Atom.asked_of_choiceCalls hchoice atoms ha.1 h
    · exact (Script.asked_of_calls hchoice (next n) (ha.2 n) h).after
        ((hchoice atoms).optional hrun)
  | .any atoms next, _, ha, h => by
    rcases h with ⟨u, hround, h⟩ | ⟨ns, t, hrun, h⟩
    · exact (Atom.asked_of_choiceCalls hchoice atoms ha.1 h).after (hround.ahead (hchoice atoms))
    · exact (Script.asked_of_calls hchoice (next ns) (ha.2 ns) h).after ((hchoice atoms).any hrun)
  | .many atoms next, _, ha, h => by
    rcases h with ⟨u, hround, h⟩ | ⟨ns, t, hrun, h⟩
    · exact (Atom.asked_of_choiceCalls hchoice atoms ha.1 h).after (hround.ahead (hchoice atoms))
    · exact (Script.asked_of_calls hchoice (next ns) (ha.2 ns) h).after ((hchoice atoms).many hrun)
  | .importModule module position next, _, ha, h => by
    obtain ⟨t, hrun, h⟩ := h
    exact (Script.asked_of_calls hchoice next ha.2 h).after
      (Parser.Forward.importModule module position hrun)
  | .offset next, _, ha, h => Script.asked_of_calls hchoice (next _) (ha _) h
  | .peek next, _, ha, h => Script.asked_of_calls hchoice (next _) (ha _) h

end

/-- An eager script has used input before it asks for other things than those that come first. -/
theorem Script.Eager.calls {first later : Requests}
    (hchoice : ∀ atoms, (Parser.firstOf (Atom.attempts apply atoms)).Forward c)
    (huses : ∀ atoms : List Atom, atoms.all Atom.plain = true → Atom.AllWithin first atoms →
      (Parser.firstOf (Atom.attempts apply atoms)).Uses c) :
    ∀ (script : Script) {s : ParseState}, script.Eager first later → script.Calls apply c s x →
    first.rule x.1 ∧ c.left x.2 ≤ c.left s ∨ later.rule x.1 ∧ c.left x.2 < c.left s
  | .one atoms next, _, ⟨hplain, hfirst, hlater⟩, h => by
    rcases h with h | ⟨n, t, hrun, h⟩
    · have hasked := Atom.asked_of_choiceCalls hchoice atoms hfirst h
      exact .inl ⟨hasked.1, hasked.2.left_le⟩
    · have hasked := Script.asked_of_calls hchoice (next n) (hlater n) h
      have hlt := huses atoms hplain hfirst hrun
      exact .inr ⟨hasked.1, Nat.lt_of_le_of_lt hasked.2.left_le hlt⟩
  | .offset next, _, hscript, h => Script.Eager.calls hchoice huses (next _) (hscript _) h

end Asked

end JayFrontEnd
