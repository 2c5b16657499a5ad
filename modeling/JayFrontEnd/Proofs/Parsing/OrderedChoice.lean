import JayFrontEnd.Proofs.Parsing.Accumulators
import JayFrontEnd.Proofs.Parsing.FurthestError
import JayFrontEnd.Proofs.Parsing.Nesting
import Mathlib.Data.List.Forall2

/-!
# Ordered choice

What an atom comes to from a cursor is the same whatever has been tried before, so the alternatives
of a choice can be looked at one by one. A choice answers as the first of them that does not fail so
that something else may be tried, and does not ask those behind it; if all fail that way, their
furthest error is its own. What is fatal ends everything it happens in.
-/

namespace JayFrontEnd

/-- What a parser comes to alone, from a cursor: its answer, and where it leaves the cursor. -/
def Parser.outcome {α : Type} (p : Parser α) (c : Setting) (i : Nat) : Except Failure α × Nat :=
  let (r, t) := p c { cursor := i }
  (r, t.cursor)

/-- The first element with a property. -/
theorem exists_first {α : Type} {P : α → Prop} {xs : List α} (h : ∃ x ∈ xs, P x) :
    ∃ before x after, xs = before ++ x :: after ∧ (∀ y ∈ before, ¬ P y) ∧ P x := by
  classical
  have hsome : (xs.find? fun x => decide (P x)).isSome = true :=
    List.find?_isSome.2 (by simpa using h)
  obtain ⟨x, hx⟩ := Option.isSome_iff_exists.1 hsome
  obtain ⟨hP, before, after, hxs, hbefore⟩ := List.find?_eq_some_iff_append.1 hx
  exact ⟨before, x, after, hxs, by simpa using hbefore, by simpa using hP⟩

/-- It comes to that whatever has been gathered before. -/
def Parser.Alone {α : Type} (c : Setting) (p : Parser α) : Prop :=
  ∀ s, ((p c s).1, (p c s).2.cursor) = p.outcome c s.cursor

/-- A failure after which something else may be tried. -/
def Misses {α : Type} (r : Except Failure α × Nat) : Prop := ∃ e, r.1 = .error (.backtrack e)

theorem IsFurthest.cons {errors : List ParseError} {e f : ParseError}
    (h : IsFurthest errors (some f)) : IsFurthest (e :: errors) (some (e.max f)) := by
  unfold ParseError.max
  split
  · next hle =>
    obtain ⟨before, after, rfl, hbefore, hafter⟩ := h
    exact ⟨e :: before, after, rfl, List.forall_mem_cons.2 ⟨hle, hbefore⟩, hafter⟩
  · next hlt =>
    refine ⟨[], errors, rfl, nofun, fun d hd => ?_⟩
    exact Nat.lt_of_le_of_lt (h.offset_le d hd) (Nat.lt_of_not_le hlt)

/-! ## Alternatives one by one -/

namespace Parser

variable {α : Type} {c : Setting} {p : Parser α} {before ps : List (Parser α)} {s : ParseState}

theorem Inert.alone (hp : p.Inert) : p.Alone c := by
  intro s
  have hrun := hp c s { cursor := s.cursor }
  rw [ParseState.fresh_onto] at hrun
  rw [hrun]
  rfl

theorem firstOf_cons (hps : ps ≠ []) : firstOf (p :: ps) = orElse p (firstOf ps) := by
  rw [firstOf]
  exact hps

/-- The choice ends with the first parser that does not miss, and does not ask those behind it. -/
theorem firstOf_of_not_misses (hbefore : ∀ q ∈ before, q.Alone c) (hp : p.Alone c)
    (hmiss : ∀ q ∈ before, Misses (q.outcome c s.cursor)) (hnot : ¬ Misses (p.outcome c s.cursor)) :
    ∃ t, t.cursor = (p.outcome c s.cursor).2 ∧
      ∀ after, firstOf (before ++ p :: after) c s = ((p.outcome c s.cursor).1, t) := by
  induction before generalizing s with
  | nil =>
    rw [← hp s] at hnot ⊢
    refine ⟨(p c s).2, rfl, fun after => ?_⟩
    rcases hrun : p c s with ⟨(e | f) | a, t⟩
    · exact absurd ⟨e, by rw [hrun]⟩ hnot
    all_goals cases after <;> simp only [List.nil_append, firstOf, restoring, orElse, hrun]
  | cons q before ih =>
    obtain ⟨hq, hbefore⟩ := List.forall_mem_cons.1 hbefore
    obtain ⟨⟨e, he⟩, hmiss⟩ := List.forall_mem_cons.1 hmiss
    rw [← hq s] at he
    rcases hrun : q c s with ⟨r, t⟩
    simp only [hrun] at he
    subst he
    -- the next one starts from the same cursor
    obtain ⟨u, hu, hrest⟩ := ih (s := t.moveTo s.cursor) hbefore hmiss hnot
    refine ⟨u, hu, fun after => ?_⟩
    rw [List.cons_append, firstOf_cons (by simp), orElse, hrun]
    simp only [hrest after]
    split
    · next f v heq => exact absurd ⟨f, congrArg Prod.fst heq⟩ hnot
    · rfl

/-- If all miss, the choice fails with the furthest of their errors. -/
theorem firstOf_of_misses (hps : ∀ q ∈ ps, q.Alone c) (hne : ps ≠ [])
    (hmiss : ∀ q ∈ ps, Misses (q.outcome c s.cursor)) : ∃ errors e t,
      List.Forall₂ (fun q e => (q.outcome c s.cursor).1 = .error (.backtrack e)) ps errors ∧
      IsFurthest errors (some e) ∧ firstOf ps c s = (.error (.backtrack e), t) := by
  induction ps generalizing s with
  | nil => exact absurd rfl hne
  | cons p ps ih =>
    obtain ⟨halone, hps⟩ := List.forall_mem_cons.1 hps
    obtain ⟨⟨e, he⟩, hmiss⟩ := List.forall_mem_cons.1 hmiss
    have hfirst := he
    rw [← halone s] at hfirst
    rcases hrun : p c s with ⟨r, t⟩
    simp only [hrun] at hfirst
    subst hfirst
    by_cases hlast : ps = []
    · subst hlast
      refine ⟨[e], e, t.moveTo s.cursor, .cons he .nil, ⟨[], [], rfl, nofun, nofun⟩, ?_⟩
      simp only [firstOf, restoring, hrun]
    · obtain ⟨errors, d, u, herrors, hfurthest, hrest⟩ :=
        ih (s := t.moveTo s.cursor) hps hlast hmiss
      refine ⟨e :: errors, e.max d, u, .cons he herrors, hfurthest.cons, ?_⟩
      rw [firstOf_cons hlast, orElse, hrun]
      simp only [hrest]

/-! ## What is fatal -/

theorem Rounds.of_fatal {u t : ParseState} {f : Fault} {k : Nat}
    {r : Except Failure (List α × Option ParseError) × ParseState} (h : p.Rounds c s k r)
    (hround : p.Round c s u) (hfatal : p c u = (.error (.fatal f), t)) :
    r = (.error (.fatal f), t) := by
  induction hround generalizing k r with
  | first =>
    cases h with
    | fails hrun => cases hrun.symm.trans hfatal
    | aborts hrun => cases hrun.symm.trans hfatal; rfl
    | stays hrun _ => cases hrun.symm.trans hfatal
    | goesOn hrun _ _ => cases hrun.symm.trans hfatal
  | later hok hmoved _ ih =>
    cases h with
    | fails hrun => cases hrun.symm.trans hok
    | aborts hrun => cases hrun.symm.trans hok
    | stays hrun hstay =>
      cases hrun.symm.trans hok
      exact absurd hstay hmoved
    | goesOn hrun _ hrest =>
      cases hrun.symm.trans hok
      cases ih hrest hfatal
      rfl

theorem repeated_of_fatal {u t : ParseState} {f : Fault} (hp : p.Forward c)
    (hround : p.Round c s u) (hfatal : p c u = (.error (.fatal f), t)) :
    repeated p c s = (.error (.fatal f), t) := by
  obtain ⟨k, -, hrounds⟩ := hp.rounds_repeated s
  exact hrounds.of_fatal hround hfatal

theorem bind_of_fatal {β : Type} {g : α → Parser β} {t : ParseState} {f : Fault}
    (h : p c s = (.error (.fatal f), t)) : (p >>= g) c s = (.error (.fatal f), t) := by
  simp only [Bind.bind, h]

theorem any_of_fatal {u t : ParseState} {f : Fault} (hp : p.Forward c)
    (hround : p.Round c s u) (hfatal : p c u = (.error (.fatal f), t)) :
    any p c s = (.error (.fatal f), t) :=
  bind_of_fatal (repeated_of_fatal hp hround hfatal)

theorem many_of_fatal {u t : ParseState} {f : Fault} (hp : p.Forward c)
    (hround : p.Round c s u) (hfatal : p c u = (.error (.fatal f), t)) :
    many p c s = (.error (.fatal f), t) := by
  simp only [many, repeated_of_fatal hp hround hfatal]

theorem optional_of_fatal {t : ParseState} {f : Fault} (h : p c s = (.error (.fatal f), t)) :
    optional p c s = (.error (.fatal f), t) := by
  simp only [optional, h]

end Parser

section Fatal

variable {apply : String → Parser Node} {c : Setting} {x : String × ParseState} {t : ParseState}
  {f : Fault}

mutual

/-- An attempt that applies a rule which fails fatally fails the same way. -/
theorem Atom.fatal_of_calls (hforward : ∀ name, (apply name).Forward c)
    (hfatal : apply x.1 c x.2 = (.error (.fatal f), t)) :
    ∀ (a : Atom) {s : ParseState}, a.Calls apply c s x →
    a.attempt apply c s = (.error (.fatal f), t)
  | .rule name, _, h => by
    subst h
    exact hfatal
  | .inline kind script, _, h => by
    simp only [Atom.attempt, Parser.wrapped, Script.fatal_of_calls hforward hfatal script h]
  | .named label atom, _, h => by
    simp only [Atom.attempt, Parser.labelled, Atom.fatal_of_calls hforward hfatal atom h]
  | .token _, _, h | .literal _, _, h | .pattern _, _, h => h.elim

theorem Atom.choice_fatal_of_calls (hforward : ∀ name, (apply name).Forward c)
    (hfatal : apply x.1 c x.2 = (.error (.fatal f), t)) :
    ∀ (as : List Atom) {s : ParseState}, Atom.ChoiceCalls apply c as s x →
    Parser.firstOf (Atom.attempts apply as) c s = (.error (.fatal f), t)
  | [], _, h => h.elim
  | [a], _, h => by
    rcases h with h | ⟨_, _, -, h⟩
    · simp only [Atom.attempts, Parser.firstOf, Parser.restoring,
        Atom.fatal_of_calls hforward hfatal a h]
    · exact h.elim
  | a :: b :: as, _, h => by
    rw [Atom.attempts, Parser.firstOf_cons (by simp [Atom.attempts])]
    rcases h with h | ⟨e, u, hrun, h⟩
    · simp only [Parser.orElse, Atom.fatal_of_calls hforward hfatal a h]
    · simp only [Parser.orElse, hrun, Atom.choice_fatal_of_calls hforward hfatal (b :: as) h]

/-- So does the run of a script, whatever the rule is applied in: a choice, something optional, a
round of a repetition, or an atom with a label or a script of its own. -/
theorem Script.fatal_of_calls (hforward : ∀ name, (apply name).Forward c)
    (hfatal : apply x.1 c x.2 = (.error (.fatal f), t)) :
    ∀ (script : Script) {s : ParseState}, script.Calls apply c s x →
    script.run apply c s = (.error (.fatal f), t)
  | .done _, _, h | .fail _, _, h | .failAt _ _, _, h | .abort _, _, h => h.elim
  | .one atoms next, _, h => by
    rcases h with h | ⟨n, u, hrun, h⟩
    · exact Parser.bind_of_fatal (Atom.choice_fatal_of_calls hforward hfatal atoms h)
    · simp only [Script.run, Bind.bind, hrun, Script.fatal_of_calls hforward hfatal (next n) h]
  | .opt atoms next, _, h => by
    rcases h with h | ⟨n, u, hrun, h⟩
    · exact Parser.bind_of_fatal
        (Parser.optional_of_fatal (Atom.choice_fatal_of_calls hforward hfatal atoms h))
    · simp only [Script.run, Bind.bind, hrun, Script.fatal_of_calls hforward hfatal (next n) h]
  | .any atoms next, _, h => by
    rcases h with ⟨u, hround, h⟩ | ⟨ns, u, hrun, h⟩
    · exact Parser.bind_of_fatal (Parser.any_of_fatal (.firstOf hforward atoms) hround
        (Atom.choice_fatal_of_calls hforward hfatal atoms h))
    · simp only [Script.run, Bind.bind] at hrun ⊢
      simp only [hrun, Script.fatal_of_calls hforward hfatal (next ns) h]
  | .many atoms next, _, h => by
    rcases h with ⟨u, hround, h⟩ | ⟨ns, u, hrun, h⟩
    · exact Parser.bind_of_fatal (Parser.many_of_fatal (.firstOf hforward atoms) hround
        (Atom.choice_fatal_of_calls hforward hfatal atoms h))
    · simp only [Script.run, Bind.bind, hrun, Script.fatal_of_calls hforward hfatal (next ns) h]
  | .importModule module position next, _, h => by
    obtain ⟨u, hrun, h⟩ := h
    simp only [Script.run, Bind.bind, hrun, Script.fatal_of_calls hforward hfatal next h]
  | .offset next, _, h => Script.fatal_of_calls hforward hfatal (next _) h
  | .peek next, _, h => Script.fatal_of_calls hforward hfatal (next _) h

end

end Fatal

/-! ## Atoms -/

theorem Atom.attempts_eq_map (apply : String → Parser Node) (as : List Atom) :
    Atom.attempts apply as = as.map (·.attempt apply) := by
  induction as with
  | nil => rfl
  | cons a as ih => rw [Atom.attempts, ih, List.map_cons]

/-- What an attempt at an atom comes to depends on the cursor alone. -/
theorem Grammar.Applies.attempt_alone {g : Grammar} {c : Setting} {apply : String → Parser Node}
    (happly : g.Applies c apply) (a : Atom) : (a.attempt apply).Alone c := by
  choose fuel hfuel using happly
  have hrun : ∀ s, a.attempt apply c s =
      a.attempt (fun name => g.applyWithin (fuel name) name) c s := fun s =>
    Atom.attempt_congr a fun x _ => congrFun (hfuel x.1) x.2
  have hinert : (a.attempt fun name => g.applyWithin (fuel name) name).Inert :=
    @Respects.attempt _ _ Parser.Inert.respects _ (fun name => g.applyWithin (fuel name) name)
      (fun name _ => .applyWithin g (fuel name) name) a a.within_all
  intro s
  rw [hrun, hinert.alone s, Parser.outcome, Parser.outcome, hrun]

/-- The alternatives of a choice are looked at one by one: an attempt at an atom comes to the same
whatever has been gathered before. If one of them does not miss, the choice ends as the first that
does not, and whatever stands behind it makes no difference. If all miss, the choice fails with
their furthest error, the last of those as far on, and is back at the start; something optional is
then nothing. A label takes the place of any error of its atom, where the atom started. What is
fatal is let through by all of them, in whatever round of a repetition or however deep in an atom it
comes about. -/
theorem Combinator.ordered_choice {g : Grammar} {c : Setting} {apply : String → Parser Node}
    (happly : g.Applies c apply) (s : ParseState) {atoms : List Atom} (hne : atoms ≠ []) :
    let outcome := fun a : Atom => (a.attempt apply).outcome c s.cursor
    let one : List Atom → Parser Node := fun as => (Combinator.one as).run apply
    (∀ (a : Atom) (u : ParseState), u.cursor = s.cursor →
      ((a.attempt apply c u).1, (a.attempt apply c u).2.cursor) = outcome a) ∧
    ((∃ a ∈ atoms, ¬ Misses (outcome a)) → ∃ before a after, atoms = before ++ a :: after ∧
      (∀ b ∈ before, Misses (outcome b)) ∧ ¬ Misses (outcome a) ∧
      ((one atoms c s).1, (one atoms c s).2.cursor) = outcome a ∧
      ∀ others, one (before ++ a :: others) c s = one atoms c s) ∧
    ((∀ a ∈ atoms, Misses (outcome a)) → ∃ errors e t,
      List.Forall₂ (fun a e => (outcome a).1 = .error (.backtrack e)) atoms errors ∧
      IsFurthest errors (some e) ∧ one atoms c s = (.error (.backtrack e), t) ∧
      t.cursor = s.cursor ∧ (Combinator.opt atoms).run apply c s = (.ok none, t)) ∧
    (∀ label a, (ParseProblem.expected label).message = s!"expected {label}" ∧
      outcome (.named label a) = match outcome a with
        | (.error (.backtrack _), i) =>
          (.error (.backtrack ⟨.expected label, c.input.offset s.cursor⟩), i)
        | r => r) ∧
    (∀ (f : Fault) (t : ParseState), one atoms c s = (.error (.fatal f), t) →
      (Combinator.opt atoms).run apply c s = (.error (.fatal f), t)) ∧
    (∀ (u t : ParseState) (f : Fault), (one atoms).Round c s u →
      one atoms c u = (.error (.fatal f), t) →
      (Combinator.any atoms).run apply c s = (.error (.fatal f), t) ∧
      (Combinator.many atoms).run apply c s = (.error (.fatal f), t)) ∧
    ∀ (a : Atom) (x : String × ParseState) (f : Fault) (t : ParseState), a.Calls apply c s x →
      apply x.1 c x.2 = (.error (.fatal f), t) → a.attempt apply c s = (.error (.fatal f), t) := by
  intro outcome one
  have halone : ∀ as : List Atom, ∀ p ∈ as.map (·.attempt apply), p.Alone c := fun as =>
    List.forall_mem_map.2 fun a _ => happly.attempt_alone a
  have hone : ∀ as, one as = Parser.firstOf (as.map (·.attempt apply)) := fun as =>
    congrArg Parser.firstOf (Atom.attempts_eq_map apply as)
  have hforward : ∀ as, (one as).Forward c := .firstOf happly.forward
  refine ⟨fun a u hu => ?_, fun hexists => ?_, fun hmiss => ?_, fun label a => ⟨?_, ?_⟩,
    fun f t => Parser.optional_of_fatal, fun u t f hround hfatal => ⟨?_, ?_⟩,
    fun a x f t hcalls hfatal => Atom.fatal_of_calls happly.forward hfatal a hcalls⟩
  · rw [happly.attempt_alone a u, hu]
  · obtain ⟨before, a, after, hatoms, hbefore, hnot⟩ := exists_first hexists
    replace hbefore : ∀ b ∈ before, Misses (outcome b) := fun b hb => not_not.1 (hbefore b hb)
    obtain ⟨t, ht, hrun⟩ := Parser.firstOf_of_not_misses (halone before) (happly.attempt_alone a)
      (List.forall_mem_map.2 hbefore) hnot
    have hsplit : ∀ others, one (before ++ a :: others) c s = ((outcome a).1, t) := fun others => by
      rw [hone, List.map_append, List.map_cons]
      exact hrun _
    refine ⟨before, a, after, hatoms, hbefore, hnot, ?_, fun others => ?_⟩
    · rw [hatoms, hsplit, ht]
    · rw [hatoms, hsplit, hsplit]
  · obtain ⟨errors, e, t, herrors, hfurthest, hrun⟩ := Parser.firstOf_of_misses (s := s)
      (halone atoms) (List.map_eq_nil_iff.not.2 hne) (List.forall_mem_map.2 hmiss)
    rw [← hone] at hrun
    have hback : t.cursor = s.cursor := Parser.Returns.firstOf _ s e t hrun
    refine ⟨errors, e, t, List.forall₂_map_left_iff.1 herrors, hfurthest, hrun, hback, ?_⟩
    show Parser.optional (one atoms) c s = _
    simp only [Parser.optional, hrun, ParseState.moveTo, ← hback]
  · rfl
  · simp only [outcome, Parser.outcome, Atom.attempt, Parser.labelled]
    rcases a.attempt apply c { cursor := s.cursor } with ⟨(e | f) | n, t⟩ <;> rfl
  · exact Parser.any_of_fatal (hforward atoms) hround hfatal
  · exact Parser.many_of_fatal (hforward atoms) hround hfatal

def letters : Setting where
  input := .text "éé".toList

/-- A pair that is called one, a pair, and a digit. The second gets furthest. -/
def pairAtoms : List Atom := [.named "a pair" (.rule "pair"), .rule "pair", .literal "1"]

theorem Combinator.ordered_choice_pair :
    pairAtoms ≠ [] ∧
    (∀ a ∈ pairAtoms, Misses ((a.attempt pairs.apply).outcome letters 0)) ∧ ∃ t,
      (Combinator.one pairAtoms).run pairs.apply letters {} =
        (.error (.backtrack ⟨.expectedLiteral "2", 2⟩), t) ∧
      t.cursor = 0 ∧ (Combinator.opt pairAtoms).run pairs.apply letters {} = (.ok none, t) := by
  have hne : pairAtoms ≠ [] := nofun
  have hmiss : ∀ a ∈ pairAtoms, Misses ((a.attempt pairs.apply).outcome letters 0) := by
    simp only [pairAtoms, List.forall_mem_cons]
    exact ⟨⟨_, rfl⟩, ⟨_, rfl⟩, ⟨_, rfl⟩, nofun⟩
  obtain ⟨-, -, hall, -⟩ := Combinator.ordered_choice (pairs.applies_apply letters) {} hne
  obtain ⟨-, e, t, -, -, hone, hback, hopt⟩ := hall hmiss
  have he : e = ⟨.expectedLiteral "2", 2⟩ := by
    have herror := congrArg Prod.fst hone
    cases herror
    rfl
  exact ⟨hne, hmiss, t, he ▸ hone, hback, hopt⟩

end JayFrontEnd
