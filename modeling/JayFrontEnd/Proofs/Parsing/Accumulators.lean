import JayFrontEnd.Proofs.Parsing.Operation
import JayFrontEnd.Proofs.Parsing.Respects

/-!
# Parsing does not depend on what was seen before

The furthest error and the modules asked for are gathered on the way, and no parser looks at them.
A parser run from a state does what it does from the same cursor with nothing gathered; what it
gathers then is added to what the state had.
-/

namespace JayFrontEnd

theorem ParseError.max_assoc (d e f : ParseError) : (d.max e).max f = d.max (e.max f) := by
  grind [ParseError.max]

namespace ParseState

/-- The state with what the earlier one had gathered ahead of what it gathered itself. -/
def onto (t s : ParseState) : ParseState where
  cursor := t.cursor
  furthest := match t.furthest, s.furthest with
    | some e, some f => some (f.max e)
    | some e, none => some e
    | none, f => f
  imports := s.imports ++ t.imports.filter fun i => !s.imports.any (·.module == i.module)

variable (s t : ParseState)

theorem fresh_onto : ParseState.onto { cursor := s.cursor } s = s := by
  simp [onto]

theorem note_onto (e : ParseError) : (t.onto s).note e = (t.note e).onto s := by
  rcases s with ⟨i, _ | f, is⟩ <;> rcases t with ⟨j, _ | d, js⟩
  all_goals simp [note, onto, ParseError.max_assoc]

/-- A module is among those of the earlier state and the new ones if it is among those of either. -/
theorem any_imports_onto (module : String) :
    (t.onto s).imports.any (·.module == module) =
      (s.imports.any (·.module == module) || t.imports.any (·.module == module)) := by
  rw [Bool.eq_iff_iff]
  simp only [onto, List.any_append, List.any_filter, Bool.or_eq_true, List.any_eq_true,
    Bool.and_eq_true, beq_iff_eq, Bool.not_eq_true', List.any_eq_false]
  grind

theorem require_onto (i : Import) : (t.onto s).require i = (t.require i).onto s := by
  unfold require
  rw [any_imports_onto]
  by_cases ht : t.imports.any (·.module == i.module) = true
  · rw [ht, Bool.or_true, if_pos rfl, if_pos rfl]
  · by_cases hs : s.imports.any (·.module == i.module) = true
    · simp [onto, ht, hs, List.filter_append]
    · simp [onto, ht, hs, List.filter_append]

end ParseState

/-- Gathered or not before, the parser does the same and gathers the same. -/
def Parser.Inert {α : Type} (p : Parser α) : Prop :=
  ∀ c s t, p c (ParseState.onto t s) = ((p c t).1, (p c t).2.onto s)

namespace Parser.Inert

variable {α β : Type} {p q : Parser α}

theorem bind {f : α → Parser β} (hp : p.Inert) (hf : ∀ a, (f a).Inert) : (p >>= f).Inert := by
  intro c s t
  simp only [Bind.bind, hp c s t]
  rcases p c t with ⟨_ | a, u⟩
  · rfl
  · exact hf a c s u

theorem restoring (hp : p.Inert) : (Parser.restoring p).Inert := by
  intro c s t
  simp only [Parser.restoring, hp c s t]
  rcases p c t with ⟨(e | fault) | a, u⟩ <;> rfl

theorem orElse (hp : p.Inert) (hq : q.Inert) : (Parser.orElse p q).Inert := by
  intro c s t
  simp only [Parser.orElse, hp c s t]
  rcases p c t with ⟨(e | fault) | a, u⟩
  · have hback : (u.onto s).moveTo (t.onto s).cursor = (u.moveTo t.cursor).onto s := rfl
    simp only [hback, hq c s (u.moveTo t.cursor)]
    rcases q c (u.moveTo t.cursor) with ⟨(f | fault) | a, v⟩ <;> rfl
  · rfl
  · rfl

theorem optional (hp : p.Inert) : (Parser.optional p).Inert := by
  intro c s t
  simp only [Parser.optional, hp c s t]
  rcases p c t with ⟨(e | fault) | a, u⟩ <;> rfl

theorem upTo (hp : p.Inert) (n : Nat) : (Parser.upTo p n).Inert := by
  induction n with
  | zero => exact fun _ _ _ => rfl
  | succ n ih =>
    intro c s t
    simp only [Parser.upTo, hp c s t]
    rcases p c t with ⟨(e | fault) | a, u⟩
    · rfl
    · rfl
    · have hcursors : (u.onto s).cursor = (t.onto s).cursor ↔ u.cursor = t.cursor := Iff.rfl
      by_cases hstay : u.cursor = t.cursor
      · simp only [if_pos hstay, hcursors]
      · simp only [if_neg hstay, hcursors, ih c s u]
        rcases Parser.upTo p n c u with ⟨_ | ⟨as, e⟩, v⟩ <;> rfl

theorem repeated (hp : p.Inert) : (Parser.repeated p).Inert := fun c s t => hp.upTo _ c s t

theorem any (hp : p.Inert) : (Parser.any p).Inert := hp.repeated.bind fun _ _ _ _ => rfl

theorem many (hp : p.Inert) : (Parser.many p).Inert := by
  intro c s t
  simp only [Parser.many, hp.repeated c s t]
  rcases Parser.repeated p c t with ⟨_ | ⟨_ | ⟨a, as⟩, _ | e⟩, u⟩ <;> rfl

theorem failAt (problem : ParseProblem) (offset : Nat) :
    (Parser.failAt (α := α) problem offset).Inert := fun _ s t =>
  congrArg (Prod.mk _) (ParseState.note_onto s t _)

theorem fail (problem : ParseProblem) : (Parser.fail (α := α) problem).Inert := fun c s t =>
  failAt problem (c.input.offset t.cursor) c s t

theorem labelled (label : String) (hp : p.Inert) : (Parser.labelled label p).Inert := by
  intro c s t
  simp only [Parser.labelled, hp c s t]
  rcases p c t with ⟨(e | fault) | a, u⟩
  · exact failAt _ _ c s u
  · rfl
  · rfl

theorem wrapped {p : Parser Parsed} (kind : String) (hp : p.Inert) :
    (Parser.wrapped kind p).Inert := by
  intro c s t
  simp only [Parser.wrapped, hp c s t]
  rcases p c t with ⟨_ | ⟨v | n⟩, u⟩ <;> rfl

theorem importModule (module : String) (position : Nat) :
    (Parser.importModule module position).Inert := by
  intro c s t
  unfold Parser.importModule
  split
  · exact failAt _ _ c s t
  · exact congrArg (Prod.mk _) (ParseState.require_onto s t _)

theorem token (kind : String) : (Parser.token kind).Inert := by
  intro c s t
  unfold Parser.token
  split
  · rfl
  · next ts _ =>
    have hcursor : (ParseState.onto t s).cursor = t.cursor := rfl
    simp only [hcursor]
    rcases ts[t.cursor]? with _ | x
    · exact fail _ c s t
    · dsimp only
      split
      · rfl
      · exact failAt _ _ c s t

theorem literal (text : String) : (Parser.literal text).Inert := by
  intro c s t
  unfold Parser.literal
  split
  · rfl
  · have hcursor : (ParseState.onto t s).cursor = t.cursor := rfl
    simp only [hcursor]
    split
    · rfl
    · exact fail _ c s t

theorem pattern (regex : Regex) : (Parser.pattern regex).Inert := by
  intro c s t
  unfold Parser.pattern
  split
  · rfl
  · have hcursor : (ParseState.onto t s).cursor = t.cursor := rfl
    simp only [hcursor]
    split
    · exact fail _ c s t
    · rfl

theorem respects : Respects {} fun p _ => p.Inert where
  pure _ := fun _ _ _ => rfl
  bind := bind
  token := token
  literal := literal
  pattern := pattern
  restoring := restoring
  orElse := orElse
  optional := optional
  repeated := repeated
  many := many
  labelled := labelled
  wrapped := wrapped
  importModule _ := importModule
  fail := fail
  failAt _ := failAt
  offset := fun _ _ _ => rfl
  peek := fun _ _ _ => rfl
  abort_left _ _ := fun _ _ _ => rfl
  abort_right _ hp := hp

theorem applyWithin (g : Grammar) (fuel : Nat) (name : String) : (g.applyWithin fuel name).Inert :=
  respects.applyWithin (fun _ script _ _ => script.within_all) fuel fuel trivial

theorem one (g : Grammar) (atoms : List Atom) : (g.one atoms).Inert :=
  @Respects.firstOf _ _ respects g.apply g.apply
    (fun name _ c => applyWithin g (g.depth c.input) name c) atoms (Atom.allWithin_all atoms)

end Parser.Inert

theorem Operation.inert {α : Type} (g : Grammar) : ∀ op : Operation α, (op.run g).Inert
  | .one atoms => .one g atoms
  | .opt atoms => (Parser.Inert.one g atoms).optional
  | .any atoms => (Parser.Inert.one g atoms).any
  | .many atoms => (Parser.Inert.one g atoms).many
  | .token kind => .one g [.token kind]
  | .rule name => .one g [.rule name]
  | .importModule module position => .importModule module position
  | .fail problem => .fail problem
  | .failAt problem place => .failAt problem place
  | .offset | .peek | .isAt _ | .isAtEnd | .checkpoint | .restore _ => fun _ _ _ => rfl

/-- Whatever a parser has gathered before, an operation answers as it does from the same cursor with
nothing gathered, and moves the cursor as it does there. The furthest error is then that of the
fresh run unless the earlier one is further on, and the modules asked for are the earlier ones and
then those of the fresh run that are not among them. -/
theorem Operation.run_eq_run_fresh {α : Type} (g : Grammar) (op : Operation α) (c : Setting)
    (s : ParseState) :
    let fresh := op.run g c { cursor := s.cursor }
    (op.run g c s).1 = fresh.1 ∧
    (op.run g c s).2.cursor = fresh.2.cursor ∧
    (op.run g c s).2.furthest = (match fresh.2.furthest, s.furthest with
      | some e, some f => if f.offset ≤ e.offset then some e else some f
      | some e, none => some e
      | none, f => f) ∧
    (op.run g c s).2.imports =
      s.imports ++ fresh.2.imports.filter fun i => !s.imports.any (·.module == i.module) := by
  intro fresh
  have hrun := op.inert g c s { cursor := s.cursor }
  rw [ParseState.fresh_onto] at hrun
  rw [hrun]
  refine ⟨rfl, rfl, ?_, rfl⟩
  show (match fresh.2.furthest, s.furthest with
    | some e, some f => some (f.max e)
    | some e, none => some e
    | none, f => f) = _
  split
  · exact apply_ite some _ _ _
  · rfl
  · rfl

end JayFrontEnd
