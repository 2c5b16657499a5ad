import JayFrontEnd.Proofs.Outcome
import JayFrontEnd.Proofs.Parsing.Nesting

/-!
# Repetition

A repetition runs its choice round after round, each from where the one before has ended, as long as
the rounds use input. The first that fails is undone and ends it; the first that uses no input ends
it, too, but its node is kept. Asking for at least one round makes a difference only if there is
none.
-/

namespace JayFrontEnd

namespace Parser

variable {α : Type}

/-- The parser answers one time after another, and each time uses input. -/
inductive Progresses (p : Parser α) (c : Setting) : ParseState → List α → ParseState → Prop where
  | nil (s : ParseState) : Progresses p c s [] s
  | cons {s t u : ParseState} {a : α} {as : List α} : p c s = (.ok a, t) → s.cursor < t.cursor →
      Progresses p c t as u → Progresses p c s (a :: as) u

/-- What a repetition comes to whose rounds so far have answered with `as`, if the round from the
state is the last one. -/
inductive LastRound (p : Parser α) (c : Setting) (as : List α) (s : ParseState) :
    Except Failure (List α) × ParseState → Prop where
  /-- It fails and is undone. -/
  | fails {e : ParseError} {t : ParseState} : p c s = (.error (.backtrack e), t) →
      LastRound p c as s (.ok as, t.moveTo s.cursor)
  /-- It uses no input. -/
  | stays {a : α} {t : ParseState} : p c s = (.ok a, t) → t.cursor = s.cursor →
      LastRound p c as s (.ok (as ++ [a]), t)
  | aborts {f : Fault} {t : ParseState} : p c s = (.error (.fatal f), t) →
      LastRound p c as s (.error (.fatal f), t)

variable {p : Parser α} {c : Setting} {s t : ParseState} {k : Nat} {e : ParseError}

theorem any_eq (p : Parser α) (c : Setting) (s : ParseState) :
    any p c s = ((repeated p c s).1.map (·.1), (repeated p c s).2) := by
  simp only [any, Bind.bind]
  rcases repeated p c s with ⟨_ | _, _⟩ <;> rfl

theorem LastRound.after {a : α} {as : List α} {r : Except Failure (List α)}
    (h : p.LastRound c as s (r, t)) : p.LastRound c (a :: as) s (r.map (a :: ·), t) := by
  cases h with
  | fails hrun => exact .fails hrun
  | stays hrun hstay => exact .stays hrun hstay
  | aborts hrun => exact .aborts hrun

/-- The rounds of a repetition all use input, apart from the last one. -/
theorem Rounds.progresses {r : Except Failure (List α × Option ParseError) × ParseState}
    (hp : p.Forward c) (h : p.Rounds c s k r) :
    ∃ as u, p.Progresses c s as u ∧ as.length + 1 = k ∧
      p.LastRound c as u (r.1.map (·.1), r.2) := by
  induction h with
  | fails hrun => exact ⟨[], _, .nil _, rfl, .fails hrun⟩
  | aborts hrun => exact ⟨[], _, .nil _, rfl, .aborts hrun⟩
  | stays hrun hstay => exact ⟨[], _, .nil _, rfl, .stays hrun hstay⟩
  | @goesOn s t u a k r hrun hmoved _ ih =>
    obtain ⟨as, v, hprogress, rfl, hlast⟩ := ih
    have hlt : s.cursor < t.cursor := Nat.lt_of_le_of_ne (hp hrun).le (Ne.symm hmoved)
    refine ⟨a :: as, v, .cons hrun hlt hprogress, rfl, ?_⟩
    have hmap : ((r.map fun rest => (a :: rest.1, rest.2)).map (·.1)) =
        (r.map (·.1)).map (a :: ·) := by
      cases r <;> rfl
    rw [hmap]
    exact hlast.after

theorem any_ne_backtrack : any p c s ≠ (.error (.backtrack e), t) := by
  rw [any_eq]
  intro h
  obtain ⟨hresult, -⟩ := Prod.mk.inj h
  exact Returns.upTo_ne p _ s (repeated p c s).2 e
    (Prod.ext (Except.map_eq_error.1 hresult) rfl)

theorem repeated_of_backtrack (h : p c s = (.error (.backtrack e), t)) :
    repeated p c s = (.ok ([], some e), t.moveTo s.cursor) := by
  simp only [repeated, upTo, h]

/-- Asking for at least one round fails as the first round does. -/
theorem many_of_backtrack (h : p c s = (.error (.backtrack e), t)) :
    many p c s = (.error (.backtrack e), t.moveTo s.cursor) := by
  simp only [many, repeated_of_backtrack h]

/-- If the first round does not fail, it makes no difference that one is asked for. -/
theorem many_eq_any (h : ∀ e, (p c s).1 ≠ .error (.backtrack e)) : many p c s = any p c s := by
  rw [any_eq, many]
  rcases hrun : repeated p c s with ⟨f | ⟨as, e⟩, t⟩
  · rfl
  · cases as with
    | cons a as => rfl
    | nil =>
      cases e with
      | none => rfl
      | some e =>
        obtain ⟨u, hfirst, -⟩ := upTo_eq_nil hrun
        exact absurd (congrArg Prod.fst hfirst) (h e)

end Parser

/-- A repetition of a choice does not fail so that something else may be tried. Its rounds are runs
of the choice, each from where the one before has ended, and all of them use input but the last,
which fails and is undone, uses no input, or is fatal; there is one at most for each piece of input
left, and one more. If at least one round is asked for, it fails as the first round does, back at
the start, if that round fails so that something else may be tried; otherwise it makes no
difference, neither to the answer nor to the state. -/
theorem Combinator.repetition_laws {g : Grammar} {c : Setting} {apply : String → Parser Node}
    (happly : g.Applies c apply) (atoms : List Atom) (s : ParseState) :
    let one := (Combinator.one atoms).run apply
    let any := (Combinator.any atoms).run apply
    let many := (Combinator.many atoms).run apply
    (∀ e t, any c s ≠ (.error (.backtrack e), t)) ∧
    (∃ ns u, one.Progresses c s ns u ∧ one.LastRound c ns u (any c s) ∧
      ns.length + 1 ≤ c.input.length - s.cursor + 1) ∧
    (∀ e, (many c s).1 = .error (.backtrack e) ↔ (one c s).1 = .error (.backtrack e)) ∧
    (∀ e, (one c s).1 = .error (.backtrack e) → (many c s).2.cursor = s.cursor) ∧
    ((∀ e, (one c s).1 ≠ .error (.backtrack e)) → many c s = any c s) := by
  intro one any many
  have hforward : one.Forward c := .firstOf happly.forward atoms
  have hfails : ∀ e, (one c s).1 = .error (.backtrack e) →
      many c s = (.error (.backtrack e), (one c s).2.moveTo s.cursor) := fun e he =>
    Parser.many_of_backtrack (Prod.ext he rfl)
  have hsame : (∀ e, (one c s).1 ≠ .error (.backtrack e)) → many c s = any c s :=
    Parser.many_eq_any
  refine ⟨fun e t => Parser.any_ne_backtrack, ?_, fun e => ⟨fun h => ?_, fun h => ?_⟩,
    fun e h => ?_, hsame⟩
  · obtain ⟨k, hk, hrounds⟩ := hforward.rounds_repeated s
    obtain ⟨ns, u, hprogress, rfl, hlast⟩ := hrounds.progresses hforward
    rw [← Parser.any_eq] at hlast
    exact ⟨ns, u, hprogress, hlast, hk⟩
  · by_cases hfirst : ∃ d, (one c s).1 = .error (.backtrack d)
    · obtain ⟨d, hd⟩ := hfirst
      rw [hfails d hd] at h
      cases h
      exact hd
    · rw [hsame fun d hd => hfirst ⟨d, hd⟩] at h
      have hany : any c s = (.error (.backtrack e), (any c s).2) := Prod.ext h rfl
      exact absurd hany Parser.any_ne_backtrack
  · rw [hfails e h]
  · rw [hfails e h]
    rfl

theorem Combinator.repetition_laws_halfPair :
    let one := (Combinator.one [.rule "pair"]).run pairs.apply
    let any := (Combinator.any [.rule "pair"]).run pairs.apply
    let many := (Combinator.many [.rule "pair"]).run pairs.apply
    (any pairsInput {}).2.cursor = 6 ∧
    (∃ ns u, one.Progresses pairsInput {} ns u ∧
      one.LastRound pairsInput ns u (any pairsInput {}) ∧ ns.length + 1 ≤ 10) ∧
    many pairsInput {} = any pairsInput {} := by
  obtain ⟨-, hrounds, -, -, hsame⟩ := Combinator.repetition_laws
    (pairs.applies_apply pairsInput) [.rule "pair"] {}
  exact ⟨rfl, hrounds, hsame nofun⟩

end JayFrontEnd
