import JayFrontEnd.Proofs.Parsing.Operation
import JayFrontEnd.Proofs.Parsing.Respects

/-!
# What a parse reports

A run of a parser is told by the errors that came about in it, in their order, and by the attempts
at atoms that ended with one, those of branches that were given up included. The reports of a parser
are put together as the parser is. The furthest error a run leaves can be read off them, and an
error that a run or an attempt in it ends with is one of those that came about.
-/

namespace JayFrontEnd

inductive Report where
  | created (e : ParseError)
  /-- An attempt at an atom ended with the error. -/
  | failed (e : ParseError)
  deriving DecidableEq, Repr

def Report.created? : Report → Option ParseError
  | created e => some e
  | failed _ => none

def createdErrors (rs : List Report) : List ParseError := rs.filterMap Report.created?

theorem mem_createdErrors {rs : List Report} {e : ParseError} :
    e ∈ createdErrors rs ↔ .created e ∈ rs := by
  refine List.mem_filterMap.trans ⟨?_, fun h => ⟨_, h, rfl⟩⟩
  rintro ⟨_ | _, hr, he⟩
  · cases he
    exact hr
  · cases he

theorem createdErrors_append (rs ts : List Report) :
    createdErrors (rs ++ ts) = createdErrors rs ++ createdErrors ts := List.filterMap_append

/-- What a parser's run from a state reports. -/
def Reports : Type := Setting → ParseState → List Report

namespace Reports

variable {α : Type}

def nothing : Reports := fun _ _ => []

def ofRequest (p : Parser α) : Reports := fun c s =>
  match p c s with
  | (.error (.backtrack e), _) => [.created e]
  | _ => []

/-- After those of the parser, what comes of its answer. -/
def andThen (rs : Reports) (p : Parser α) (next : α → Reports) : Reports := fun c s =>
  rs c s ++ match p c s with
    | (.ok a, t) => next a c t
    | _ => []

/-- After those of the parser, the others from the same cursor where it fails. -/
def orElse (rs : Reports) (p : Parser α) (others : Reports) : Reports := fun c s =>
  rs c s ++ match p c s with
    | (.error (.backtrack _), t) => others c (t.moveTo s.cursor)
    | _ => []

def upTo (rs : Reports) (p : Parser α) : Nat → Reports
  | 0 => nothing
  | n + 1 => fun c s => rs c s ++ match p c s with
    | (.ok _, t) => if t.cursor = s.cursor then [] else upTo rs p n c t
    | _ => []

def repeated (rs : Reports) (p : Parser α) : Reports := fun c s =>
  upTo rs p (c.input.length - s.cursor + 1) c s

/-- Where the parser fails, the expectation of the label comes about. -/
def labelled (rs : Reports) (label : String) (p : Parser α) : Reports := fun c s =>
  rs c s ++ match p c s with
    | (.error (.backtrack _), _) => [.created ⟨.expected label, c.input.offset s.cursor⟩]
    | _ => []

theorem orElse_nothing (p : Parser α) (rs : Reports) : rs.orElse p nothing = rs := by
  funext c s
  unfold orElse
  split <;> exact List.append_nil _

def attempted (rs : Reports) (p : Parser α) : Reports := fun c s =>
  rs c s ++ match p c s with
    | (.error (.backtrack e), _) => [.failed e]
    | _ => []

end Reports

section

variable (apply : String → Parser Node) (rule : String → Reports)

mutual

def Atom.reports : Atom → Reports
  | .token kind => .ofRequest (Parser.token kind)
  | .literal text => .ofRequest (Parser.literal text)
  | .pattern regex => .ofRequest (Parser.pattern regex)
  | .rule name => rule name
  | .inline _ script => script.reports
  | .named label atom =>
    (atom.reports.attempted (atom.attempt apply)).labelled label (atom.attempt apply)

def Atom.choiceReports : List Atom → Reports
  | [] => .nothing
  | a :: as =>
    (a.reports.attempted (a.attempt apply)).orElse (a.attempt apply) (Atom.choiceReports as)

def Script.reports : Script → Reports
  | .done _ => .nothing
  | .one atoms next =>
    let p := Parser.firstOf (Atom.attempts apply atoms)
    (Atom.choiceReports atoms).andThen p fun n => (next n).reports
  | .opt atoms next =>
    let p := Parser.firstOf (Atom.attempts apply atoms)
    (Atom.choiceReports atoms).andThen (Parser.optional p) fun n => (next n).reports
  | .any atoms next =>
    let p := Parser.firstOf (Atom.attempts apply atoms)
    ((Atom.choiceReports atoms).repeated p).andThen (Parser.any p) fun ns => (next ns).reports
  | .many atoms next =>
    let p := Parser.firstOf (Atom.attempts apply atoms)
    ((Atom.choiceReports atoms).repeated p).andThen (Parser.many p) fun ns => (next ns).reports
  | .importModule module position next =>
    let p := Parser.importModule module position
    (Reports.ofRequest p).andThen p fun _ => next.reports
  | .fail problem => .ofRequest (Parser.fail (α := Parsed) problem)
  | .failAt problem offset => .ofRequest (Parser.failAt (α := Parsed) problem offset)
  | .abort _ => .nothing
  | .offset next => Reports.nothing.andThen Parser.offset fun i => (next i).reports
  | .peek next => Reports.nothing.andThen Parser.peek fun t => (next t).reports

end

end

namespace Grammar

def reportsWithin (g : Grammar) : Nat → String → Reports
  | 0, _ => .nothing
  | fuel + 1, name =>
    match g.rule? name with
    | none => .nothing
    | some script => script.reports (g.applyWithin fuel) (g.reportsWithin fuel)

def reports (g : Grammar) (name : String) : Reports := fun c =>
  g.reportsWithin (g.depth c.input) name c

end Grammar

def Operation.reports {α : Type} (g : Grammar) : Operation α → Reports
  | one atoms => Atom.choiceReports g.apply g.reports atoms
  | opt atoms => Atom.choiceReports g.apply g.reports atoms
  | any atoms => (Atom.choiceReports g.apply g.reports atoms).repeated (g.one atoms)
  | many atoms => (Atom.choiceReports g.apply g.reports atoms).repeated (g.one atoms)
  | token kind => Atom.choiceReports g.apply g.reports [.token kind]
  | rule name => Atom.choiceReports g.apply g.reports [.rule name]
  | importModule module position => .ofRequest (Parser.importModule module position)
  | fail problem => .ofRequest (Parser.fail (α := Empty) problem)
  | failAt problem place => .ofRequest (Parser.failAt (α := Empty) problem place)
  | offset | peek | isAt _ | isAtEnd | checkpoint | restore _ => .nothing

/-! ## The furthest error of a run -/

/-- The furthest error after one more has come about. -/
def noted (furthest : Option ParseError) (e : ParseError) : Option ParseError :=
  some (match furthest with
    | some f => f.max e
    | none => e)

/-- The reports tell of a run that starts with the furthest error so far: what that is at the end
comes of the errors that came about, and what the run or an attempt in it ends with is one of
these. -/
structure Told {α : Type} (before : Option ParseError) (rs : List Report)
    (run : Except Failure α × ParseState) : Prop where
  furthest : run.2.furthest = (createdErrors rs).foldl noted before
  failed : ∀ e, .failed e ∈ rs → .created e ∈ rs
  error : ∀ e, run.1 = .error (.backtrack e) → .created e ∈ rs

namespace Told

variable {α β : Type} {before : Option ParseError} {rs ts : List Report}
  {r : Except Failure α} {r' : Except Failure β} {t u : ParseState}

theorem nil (h : ∀ e, r ≠ .error (.backtrack e)) : Told t.furthest [] (r, t) :=
  ⟨rfl, nofun, fun e he => absurd he (h e)⟩

/-- Another answer at the same furthest error; an error it is came about. -/
theorem answer (h : Told before rs (r, t)) (hfurthest : u.furthest = t.furthest)
    (herror : ∀ e, r' = .error (.backtrack e) → .created e ∈ rs) : Told before rs (r', u) :=
  ⟨hfurthest.trans h.furthest, h.failed, herror⟩

theorem failure {e : Failure} (h : Told before rs (Except.error e (α := α), t)) :
    Told before rs (Except.error e (α := β), t) :=
  h.answer rfl fun d hd => h.error d (by cases hd; rfl)

theorem append (h : Told before rs (r, t)) (h' : Told t.furthest ts (r', u)) :
    Told before (rs ++ ts) (r', u) where
  furthest := by
    rw [createdErrors_append, List.foldl_append, ← h.furthest]
    exact h'.furthest
  failed e he := List.mem_append.2 ((List.mem_append.1 he).imp (h.failed e) (h'.failed e))
  error e he := List.mem_append_right _ (h'.error e he)

/-- An error that comes about after the run is what it ends with. -/
theorem create (h : Told before rs (r, t)) (e : ParseError) :
    Told before (rs ++ [.created e]) (Except.error (.backtrack e) (α := β), t.note e) :=
  h.append ⟨rfl, by simp, by simp⟩

theorem attempted {e : ParseError} (h : Told before rs (Except.error (.backtrack e) (α := α), t)) :
    Told before (rs ++ [.failed e]) (Except.error (.backtrack e) (α := α), t) where
  furthest := by
    rw [createdErrors_append]
    exact (List.append_nil _).symm ▸ h.furthest
  failed f hf := by
    refine List.mem_append_left _ ?_
    rcases List.mem_append.1 hf with hf | hf
    · exact h.failed f hf
    · cases List.mem_singleton.1 hf
      exact h.error e rfl
  error f hf := List.mem_append_left _ (h.error f hf)

end Told

def Reports.Tell {α : Type} (rs : Reports) (p : Parser α) : Prop :=
  ∀ c s, Told s.furthest (rs c s) (p c s)

namespace Reports.Tell

variable {α β : Type} {p q : Parser α} {rs ts : Reports}

theorem nothing (h : ∀ c s, (p c s).2.furthest = s.furthest)
    (herror : ∀ c s e, (p c s).1 ≠ .error (.backtrack e)) : Reports.nothing.Tell p := fun c s =>
  ⟨h c s, nofun, fun e he => absurd he (herror c s e)⟩

theorem bind {f : α → Parser β} {next : α → Reports} (hp : rs.Tell p)
    (hf : ∀ a, (next a).Tell (f a)) : (rs.andThen p next).Tell (p >>= f) := by
  intro c s
  have h := hp c s
  simp only [Bind.bind, andThen]
  generalize p c s = run at h ⊢
  obtain ⟨e | a, t⟩ := run
  · rw [List.append_nil]
    exact h.failure
  · exact h.append (hf a c t)

theorem attempted (hp : rs.Tell p) : (rs.attempted p).Tell p := by
  intro c s
  have h := hp c s
  simp only [Reports.attempted]
  generalize p c s = run at h ⊢
  obtain ⟨(e | fault) | a, t⟩ := run
  · exact h.attempted
  · rwa [List.append_nil]
  · rwa [List.append_nil]

theorem labelled (label : String) (hp : rs.Tell p) :
    (rs.labelled label p).Tell (Parser.labelled label p) := by
  intro c s
  have h := hp c s
  simp only [Reports.labelled, Parser.labelled]
  generalize p c s = run at h ⊢
  obtain ⟨(e | fault) | a, t⟩ := run
  · exact h.create _
  · rwa [List.append_nil]
  · rwa [List.append_nil]

theorem restoring (hp : rs.Tell p) : rs.Tell (Parser.restoring p) := by
  intro c s
  have h := hp c s
  unfold Parser.restoring
  generalize p c s = run at h ⊢
  obtain ⟨(e | fault) | a, t⟩ := run
  · exact h.answer rfl h.error
  · exact h
  · exact h

theorem orElse (hp : rs.Tell p) (hq : ts.Tell q) : (rs.orElse p ts).Tell (Parser.orElse p q) := by
  intro c s
  have h := hp c s
  simp only [Reports.orElse, Parser.orElse]
  generalize p c s = run at h ⊢
  obtain ⟨(e | fault) | a, t⟩ := run
  · have h' := hq c (t.moveTo s.cursor)
    simp only
    generalize q c (t.moveTo s.cursor) = run' at h' ⊢
    have hboth := h.append h'
    obtain ⟨(f | fault) | a, u⟩ := run'
    · refine hboth.answer rfl fun d hd => ?_
      cases hd
      unfold ParseError.max
      split
      · exact hboth.error f rfl
      · exact List.mem_append_left _ (h.error e rfl)
    · exact hboth
    · exact hboth
  · rwa [List.append_nil]
  · rwa [List.append_nil]

theorem optional (hp : rs.Tell p) : rs.Tell (Parser.optional p) := by
  intro c s
  have h := hp c s
  unfold Parser.optional
  generalize p c s = run at h ⊢
  obtain ⟨(e | fault) | a, t⟩ := run
  all_goals exact h.answer rfl nofun

/-- The error that puts an end to a repetition came about, too. -/
theorem told_upTo (hp : rs.Tell p) (n : Nat) (c : Setting) (s : ParseState) :
    Told s.furthest (rs.upTo p n c s) (Parser.upTo p n c s) ∧
      ∀ as e, (Parser.upTo p n c s).1 = .ok (as, some e) → .created e ∈ rs.upTo p n c s := by
  induction n generalizing s with
  | zero => exact ⟨.nil nofun, nofun⟩
  | succ n ih =>
    have h := hp c s
    simp only [Reports.upTo, Parser.upTo]
    generalize p c s = run at h ⊢
    obtain ⟨(e | fault) | a, t⟩ := run
    · rw [List.append_nil]
      refine ⟨h.answer rfl nofun, fun _ d hd => h.error d ?_⟩
      cases hd
      rfl
    · rw [List.append_nil]
      exact ⟨h.answer rfl nofun, nofun⟩
    · by_cases hstay : t.cursor = s.cursor
      · simp only [if_pos hstay, List.append_nil]
        exact ⟨h.answer rfl nofun, nofun⟩
      · obtain ⟨htold, hend⟩ := ih t
        simp only [if_neg hstay]
        generalize Parser.upTo p n c t = rest at htold hend ⊢
        have hboth := h.append htold
        obtain ⟨e | ⟨as, e⟩, u⟩ := rest
        · exact ⟨hboth.failure, nofun⟩
        · refine ⟨hboth.answer rfl nofun, fun _ d hd => List.mem_append_right _ (hend as d ?_)⟩
          cases hd
          rfl

theorem repeated (hp : rs.Tell p) : (rs.repeated p).Tell (Parser.repeated p) := fun c s =>
  (hp.told_upTo _ c s).1

theorem any (hp : rs.Tell p) : (rs.repeated p).Tell (Parser.any p) := by
  intro c s
  have h := hp.repeated c s
  simp only [Parser.any, Bind.bind]
  generalize Parser.repeated p c s = run at h ⊢
  obtain ⟨e | ⟨as, e⟩, t⟩ := run
  · exact h.failure
  · exact h.answer rfl nofun

theorem many (hp : rs.Tell p) : (rs.repeated p).Tell (Parser.many p) := by
  intro c s
  have h := hp.repeated c s
  have hend := (hp.told_upTo (c.input.length - s.cursor + 1) c s).2
  unfold Parser.many
  change ∀ as e, (Parser.repeated p c s).1 = _ → .created e ∈ rs.repeated p c s at hend
  generalize Parser.repeated p c s = run at h hend ⊢
  obtain ⟨e | ⟨_ | ⟨a, as⟩, _ | e⟩, t⟩ := run
  · exact h.failure
  · exact h.answer rfl nofun
  · exact h.answer rfl fun d hd => hend [] d (by cases hd; rfl)
  · exact h.answer rfl nofun
  · exact h.answer rfl nofun

theorem wrapped {p : Parser Parsed} (kind : String) (hp : rs.Tell p) :
    rs.Tell (Parser.wrapped kind p) := by
  intro c s
  have h := hp c s
  unfold Parser.wrapped
  generalize p c s = run at h ⊢
  obtain ⟨e | ⟨v | n⟩, t⟩ := run
  · exact h.failure
  · exact h.answer rfl nofun
  · exact h.answer rfl nofun

/-! ## Requests -/

theorem ofRequest (h : ∀ c s, (∃ e, p c s = (.error (.backtrack e), s.note e)) ∨
    (p c s).2.furthest = s.furthest ∧ ∀ e, (p c s).1 ≠ .error (.backtrack e)) :
    (Reports.ofRequest p).Tell p := by
  intro c s
  rcases h c s with ⟨e, he⟩ | ⟨hfurthest, herror⟩
  · rw [Reports.ofRequest, he]
    exact ⟨rfl, by simp, by simp⟩
  · unfold Reports.ofRequest
    generalize p c s = run at hfurthest herror
    obtain ⟨(e | fault) | a, t⟩ := run
    · exact absurd rfl (herror e)
    · exact ⟨hfurthest, nofun, nofun⟩
    · exact ⟨hfurthest, nofun, nofun⟩

theorem failAt (problem : ParseProblem) (offset : Nat) :
    (Reports.ofRequest (Parser.failAt (α := α) problem offset)).Tell
      (Parser.failAt (α := α) problem offset) := .ofRequest fun _ _ => .inl ⟨_, rfl⟩

theorem fail (problem : ParseProblem) :
    (Reports.ofRequest (Parser.fail (α := α) problem)).Tell (Parser.fail (α := α) problem) :=
  .ofRequest fun _ _ => .inl ⟨_, rfl⟩

theorem importModule (module : String) (position : Nat) :
    (Reports.ofRequest (Parser.importModule module position)).Tell
      (Parser.importModule module position) := by
  refine .ofRequest fun c s => ?_
  unfold Parser.importModule
  split
  · exact .inl ⟨_, rfl⟩
  · refine .inr ⟨?_, nofun⟩
    unfold ParseState.require
    split <;> rfl

theorem token (kind : String) :
    (Reports.ofRequest (Parser.token kind)).Tell (Parser.token kind) := by
  refine .ofRequest fun c s => ?_
  unfold Parser.token
  split
  · exact .inr ⟨rfl, nofun⟩
  · split
    · exact .inl ⟨_, rfl⟩
    · split
      · exact .inr ⟨rfl, nofun⟩
      · exact .inl ⟨_, rfl⟩

theorem literal (text : String) :
    (Reports.ofRequest (Parser.literal text)).Tell (Parser.literal text) := by
  refine .ofRequest fun c s => ?_
  unfold Parser.literal
  split
  · exact .inr ⟨rfl, nofun⟩
  · split
    · exact .inr ⟨rfl, nofun⟩
    · exact .inl ⟨_, rfl⟩

theorem pattern (regex : Regex) :
    (Reports.ofRequest (Parser.pattern regex)).Tell (Parser.pattern regex) := by
  refine .ofRequest fun c s => ?_
  unfold Parser.pattern
  split
  · exact .inr ⟨rfl, nofun⟩
  · split
    · exact .inl ⟨_, rfl⟩
    · exact .inr ⟨rfl, nofun⟩

end Reports.Tell

/-! ## Grammars -/

section

variable {apply : String → Parser Node} {rule : String → Reports}

mutual

theorem Atom.tell_reports (hrule : ∀ name, (rule name).Tell (apply name)) :
    ∀ a : Atom, (a.reports apply rule).Tell (a.attempt apply)
  | .token kind => .token kind
  | .literal text => .literal text
  | .pattern regex => .pattern regex
  | .rule name => hrule name
  | .inline kind script => .wrapped kind (Script.tell_reports hrule script)
  | .named label atom => .labelled label (.attempted (Atom.tell_reports hrule atom))

theorem Atom.tell_choiceReports (hrule : ∀ name, (rule name).Tell (apply name)) :
    ∀ as : List Atom,
      (Atom.choiceReports apply rule as).Tell (Parser.firstOf (Atom.attempts apply as))
  | [] => .nothing (fun _ _ => rfl) fun _ _ _ h => nomatch h
  | [a] => by
    rw [Atom.choiceReports, Atom.choiceReports, Reports.orElse_nothing]
    exact (Atom.tell_reports hrule a).attempted.restoring
  | a :: b :: as =>
    .orElse (.attempted (Atom.tell_reports hrule a)) (Atom.tell_choiceReports hrule (b :: as))

theorem Script.tell_reports (hrule : ∀ name, (rule name).Tell (apply name)) :
    ∀ script : Script, (script.reports apply rule).Tell (script.run apply)
  | .done _ => .nothing (fun _ _ => rfl) fun _ _ _ h => nomatch h
  | .one atoms next =>
    .bind (Atom.tell_choiceReports hrule atoms) fun n => (next n).tell_reports hrule
  | .opt atoms next =>
    .bind (.optional (Atom.tell_choiceReports hrule atoms)) fun n => (next n).tell_reports hrule
  | .any atoms next =>
    .bind (.any (Atom.tell_choiceReports hrule atoms)) fun ns => (next ns).tell_reports hrule
  | .many atoms next =>
    .bind (.many (Atom.tell_choiceReports hrule atoms)) fun ns => (next ns).tell_reports hrule
  | .importModule module position next =>
    .bind (.importModule module position) fun _ => next.tell_reports hrule
  | .fail problem => .fail problem
  | .failAt problem offset => .failAt problem offset
  | .abort _ => .nothing (fun _ _ => rfl) fun _ _ _ h => nomatch h
  | .offset next =>
    .bind (.nothing (fun _ _ => rfl) fun _ _ _ h => nomatch h) fun i => (next i).tell_reports hrule
  | .peek next =>
    .bind (.nothing (fun _ _ => rfl) fun _ _ _ h => nomatch h) fun t => (next t).tell_reports hrule

end

end

namespace Grammar

theorem tell_reportsWithin (g : Grammar) (fuel : Nat) (name : String) :
    (g.reportsWithin fuel name).Tell (g.applyWithin fuel name) := by
  induction fuel generalizing name with
  | zero =>
    obtain ⟨fault, hzero⟩ := g.applyWithin_zero name
    rw [hzero]
    exact .nothing (fun _ _ => rfl) fun _ _ _ h => nomatch h
  | succ fuel ih =>
    cases hs : g.rule? name with
    | none =>
      rw [applyWithin_none hs, reportsWithin, hs]
      exact .nothing (fun _ _ => rfl) fun _ _ _ h => nomatch h
    | some script =>
      rw [applyWithin_some hs, reportsWithin, hs]
      exact .wrapped name (script.tell_reports ih)

theorem tell_choiceReports (g : Grammar) (atoms : List Atom) :
    (Atom.choiceReports g.apply g.reports atoms).Tell (g.one atoms) :=
  Atom.tell_choiceReports (fun name c => tell_reportsWithin g (g.depth c.input) name c) atoms

end Grammar

/-- Whatever is asked of a parser, the reports tell of it. -/
theorem Operation.tell_reports {α : Type} (g : Grammar) :
    ∀ op : Operation α, (op.reports g).Tell (op.run g)
  | .one atoms => g.tell_choiceReports atoms
  | .opt atoms => .optional (g.tell_choiceReports atoms)
  | .any atoms => .any (g.tell_choiceReports atoms)
  | .many atoms => .many (g.tell_choiceReports atoms)
  | .token kind => g.tell_choiceReports [.token kind]
  | .rule name => g.tell_choiceReports [.rule name]
  | .importModule module position => .importModule module position
  | .fail problem => .fail problem
  | .failAt problem place => .failAt problem place
  | .offset | .peek | .isAt _ | .isAtEnd | .checkpoint | .restore _ =>
    .nothing (fun _ _ => rfl) fun _ _ _ h => nomatch h

end JayFrontEnd
