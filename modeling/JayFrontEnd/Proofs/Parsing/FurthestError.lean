import JayFrontEnd.Proofs.Parsing.Report

/-!
# The furthest error

Among the errors that came about while operations were run on a parser, in whatever branches, the
one it holds is the furthest on, and of those at that offset the last. A parse that fails shows that
error, so it shows none that is nearer than one an attempt has met.
-/

namespace JayFrontEnd

/-- What is held is the furthest of the errors, and the last of those as far on. -/
def IsFurthest (errors : List ParseError) : Option ParseError → Prop
  | none => errors = []
  | some e => ∃ before after, errors = before ++ e :: after ∧
      (∀ f ∈ before, f.offset ≤ e.offset) ∧ ∀ f ∈ after, f.offset < e.offset

namespace IsFurthest

variable {errors : List ParseError} {e : ParseError}

theorem offset_le (h : IsFurthest errors (some e)) : ∀ f ∈ errors, f.offset ≤ e.offset := by
  obtain ⟨before, after, rfl, hbefore, hafter⟩ := h
  intro f hf
  rcases List.mem_append.1 hf with hf | hf
  · exact hbefore f hf
  · rcases List.mem_cons.1 hf with rfl | hf
    · exact Nat.le_refl _
    · exact Nat.le_of_lt (hafter f hf)

theorem eq_or_lt {before after rest : List ParseError} {e f : ParseError}
    (h : e :: after = before ++ f :: rest) (hafter : ∀ d ∈ after, d.offset < e.offset) :
    e = f ∨ f.offset < e.offset := by
  cases before with
  | nil => exact .inl (List.cons.inj h).1
  | cons d before =>
    have hafterEq : after = before ++ f :: rest := (List.cons.inj h).2
    exact .inr (hafter f (hafterEq ▸ List.mem_append_right _ List.mem_cons_self))

theorem start : IsFurthest [] (ParseState.furthest {}) := rfl

theorem unique {f : ParseError} (he : IsFurthest errors (some e))
    (hf : IsFurthest errors (some f)) : e = f := by
  have hef := hf.offset_le e
  have hfe := he.offset_le f
  obtain ⟨before, after, heq, -, hafter⟩ := he
  obtain ⟨before', after', rfl, -, hafter'⟩ := hf
  have hmem : e ∈ before' ++ f :: after' := heq ▸ List.mem_append_right _ List.mem_cons_self
  have hoffset : e.offset = f.offset :=
    Nat.le_antisymm (hef hmem) (hfe (List.mem_append_right _ List.mem_cons_self))
  rcases List.append_eq_append_iff.1 heq with ⟨between, -, h⟩ | ⟨between, -, h⟩
  · exact ((eq_or_lt h hafter').resolve_right (Nat.not_lt.2 (Nat.le_of_eq hoffset.symm))).symm
  · exact (eq_or_lt h hafter).resolve_right (Nat.not_lt.2 (Nat.le_of_eq hoffset))

theorem noted {held : Option ParseError} (h : IsFurthest errors held) (e : ParseError) :
    IsFurthest (errors ++ [e]) (JayFrontEnd.noted held e) := by
  cases held with
  | none =>
    cases h
    exact ⟨[], [], rfl, nofun, nofun⟩
  | some f =>
    by_cases hfar : f.offset ≤ e.offset
    · rw [JayFrontEnd.noted, ParseError.max, if_pos hfar]
      exact ⟨errors, [], rfl, fun d hd => Nat.le_trans (h.offset_le d hd) hfar, nofun⟩
    · rw [JayFrontEnd.noted, ParseError.max, if_neg hfar]
      obtain ⟨before, after, rfl, hbefore, hafter⟩ := h
      refine ⟨before, after ++ [e], by simp, hbefore, fun d hd => ?_⟩
      rcases List.mem_append.1 hd with hd | hd
      · exact hafter d hd
      · cases List.mem_singleton.1 hd
        exact Nat.lt_of_not_le hfar

theorem foldl_noted {held : Option ParseError} (h : IsFurthest errors held)
    (es : List ParseError) : IsFurthest (errors ++ es) (es.foldl JayFrontEnd.noted held) := by
  induction es generalizing errors held with
  | nil => rwa [List.append_nil]
  | cons e es ih =>
    rw [List.append_cons]
    exact ih (h.noted e)

end IsFurthest

/-! ## Sequences of operations -/

abbrev AnyOperation : Type 1 := Σ α, Operation α

namespace Grammar

variable (g : Grammar) (c : Setting)

/-- The state in which operations leave a parser. One that fails does not keep the next from being
run. -/
def runAll : List AnyOperation → ParseState → ParseState
  | [], s => s
  | ⟨_, op⟩ :: ops, s => runAll ops (op.run g c s).2

def reportsAll : List AnyOperation → ParseState → List Report
  | [], _ => []
  | ⟨_, op⟩ :: ops, s => op.reports g c s ++ reportsAll ops (op.run g c s).2

variable {g c}

theorem isFurthest_run {α : Type} {errors : List ParseError} {s : ParseState}
    (h : IsFurthest errors s.furthest) (op : Operation α) :
    IsFurthest (errors ++ createdErrors (op.reports g c s)) (op.run g c s).2.furthest := by
  rw [(op.tell_reports g c s).furthest]
  exact h.foldl_noted _

theorem isFurthest_runAll {errors : List ParseError} {s : ParseState}
    (h : IsFurthest errors s.furthest) (ops : List AnyOperation) :
    IsFurthest (errors ++ createdErrors (g.reportsAll c ops s)) (g.runAll c ops s).furthest := by
  induction ops generalizing errors s with
  | nil => rwa [reportsAll, createdErrors, List.filterMap_nil, List.append_nil]
  | cons op ops ih =>
    rw [reportsAll, createdErrors_append, ← List.append_assoc]
    exact ih (isFurthest_run h op.2)

/-! ## Whole parses -/

variable (g c)

def parseReports : List Report := (Operation.rule g.root).reports g c {}

/-- The parse fails with the fault, and nothing fatal has happened. -/
structure FailsWith (fault : Fault) : Prop where
  valid : g.validate = .ok ()
  not_fatal : ∀ f, (g.rule g.root c {}).1 ≠ .error (.fatal f)
  parse : g.parse c = .error fault

/-- The root matches, but not all of the input, and no error has come about. -/
def StopsEarly : Prop :=
  ∃ tree s, g.rule g.root c {} = (.ok tree, s) ∧ c.input.isEnd s.cursor = false ∧
    createdErrors (g.parseReports c) = []

/-- What is to be said of the error that a parse shows. -/
structure Shows (e : ParseError) : Prop where
  created : ∀ f, .created f ∈ g.parseReports c → f.offset ≤ e.offset
  failed : ∀ f, .failed f ∈ g.parseReports c → f.offset ≤ e.offset
  /-- Where the root fails, an error is held, and that is the one. -/
  root : ∀ f, (g.rule g.root c {}).1 = .error (.backtrack f) →
    f.offset ≤ e.offset ∧ (g.rule g.root c {}).2.furthest = some e
  /-- The words for input that is left over stand for that, or are those of the furthest error. -/
  rest : e.problem.message = ParseProblem.unparsedRest.message ↔
    g.StopsEarly c ∨ ∃ f, IsFurthest (createdErrors (g.parseReports c)) (some f) ∧
      f.problem.message = ParseProblem.unparsedRest.message

variable {g c}

/-- At the end of a parse the furthest error is held. -/
theorem isFurthest_parse :
    IsFurthest (createdErrors (g.parseReports c)) (g.rule g.root c {}).2.furthest :=
  isFurthest_run .start (Operation.rule g.root)

theorem shows_of_furthest {e : ParseError} (h : (g.rule g.root c {}).2.furthest = some e) :
    g.Shows c e := by
  have htells := (Operation.rule g.root).tell_reports g c {}
  have hfurthest : IsFurthest (createdErrors (g.parseReports c)) (some e) := h ▸ isFurthest_parse
  have hcreated : ∀ f, .created f ∈ g.parseReports c → f.offset ≤ e.offset := fun f hf =>
    hfurthest.offset_le f (mem_createdErrors.2 hf)
  refine ⟨hcreated, fun f hf => hcreated f (htells.failed f hf),
    fun f hf => ⟨hcreated f (htells.error f hf), h⟩, fun hwords => .inr ⟨e, hfurthest, hwords⟩, ?_⟩
  rintro (⟨_, _, -, -, hnone⟩ | ⟨f, hf, hwords⟩)
  · rw [hnone] at hfurthest
    obtain ⟨before, after, hnil, -, -⟩ := hfurthest
    simp at hnil
  · exact hfurthest.unique hf ▸ hwords

/-- The words for input that is left over, where no error is held. -/
theorem shows_rest {tree : Node} {s : ParseState} (hrun : g.rule g.root c {} = (.ok tree, s))
    (hend : c.input.isEnd s.cursor = false) (h : s.furthest = none) (offset : Nat) :
    g.Shows c ⟨.unparsedRest, offset⟩ := by
  have htells := (Operation.rule g.root).tell_reports g c {}
  have hnone : createdErrors (g.parseReports c) = [] := by
    have hfurthest := isFurthest_parse (g := g) (c := c)
    rw [hrun, h] at hfurthest
    exact hfurthest
  have hcreated : ∀ f, .created f ∉ g.parseReports c := fun f hf => by
    have hmem := mem_createdErrors.2 hf
    rw [hnone] at hmem
    cases hmem
  refine ⟨fun f hf => absurd hf (hcreated f), fun f hf => absurd (htells.failed f hf) (hcreated f),
    fun f hf => ?_, fun _ => .inl ⟨tree, s, hrun, hend, hnone⟩, fun _ => rfl⟩
  rw [hrun] at hf
  cases hf

/-- Where the root fails, an error is held. -/
theorem exists_furthest_of_fails {e : ParseError}
    (h : (g.rule g.root c {}).1 = .error (.backtrack e)) :
    ∃ d, (g.rule g.root c {}).2.furthest = some d := by
  have hcreated := mem_createdErrors.2 (((Operation.rule g.root).tell_reports g c {}).error e h)
  have hfurthest := isFurthest_parse (g := g) (c := c)
  cases hheld : (g.rule g.root c {}).2.furthest with
  | none =>
    rw [hheld] at hfurthest
    exact absurd (hfurthest ▸ hcreated : e ∈ []) List.not_mem_nil
  | some d => exact ⟨d, rfl⟩

/-- A parse that fails shows the furthest error, or that input is left over. -/
theorem shows_of_failsWith {fault : Fault} (h : g.FailsWith c fault) :
    ∃ e, fault = e.fault ∧ g.Shows c e := by
  have hparse := h.parse
  have hfatal := h.not_fatal
  rw [parse, h.valid] at hparse
  simp only [Bind.bind, Except.bind] at hparse
  rcases hrun : g.rule g.root c {} with ⟨(e | f) | tree, s⟩
  · obtain ⟨d, hd⟩ := exists_furthest_of_fails (congrArg Prod.fst hrun)
    have hheld : s.furthest = some d := by rwa [hrun] at hd
    simp only [hrun, hheld, Option.getD_some] at hparse
    exact ⟨d, (Except.error.inj hparse).symm, shows_of_furthest hd⟩
  · exact absurd (congrArg Prod.fst hrun) (hfatal f)
  · simp only [hrun] at hparse
    split at hparse
    · cases hparse
    · next hend =>
      cases hheld : s.furthest with
      | none =>
        simp only [hheld, Option.getD_none] at hparse
        exact ⟨_, (Except.error.inj hparse).symm,
          shows_rest hrun (Bool.eq_false_iff.2 hend) hheld _⟩
      | some d =>
        simp only [hheld, Option.getD_some] at hparse
        exact ⟨d, (Except.error.inj hparse).symm,
          shows_of_furthest ((congrArg (·.2.furthest) hrun).trans hheld)⟩

end Grammar

/-- Whatever operations are run on a parser of a grammar, the error it holds then is the furthest of
those that came about in them, and the last of those as far on; putting the cursor back leaves it.
So a parse that fails, and not fatally, shows an error that no failed attempt and no failure of the
root is ahead of. It is in the words for input that is left over only where the root left input
over without any error, or where the furthest error is in these words itself. -/
theorem holds_furthest (g : Grammar) (c : Setting) :
    (∀ ops, IsFurthest (createdErrors (g.reportsAll c ops {})) (g.runAll c ops {}).furthest) ∧
    (∀ cursor s, ((Operation.restore cursor).run g c s).2.furthest = s.furthest) ∧
    ∀ fault, g.FailsWith c fault → ∃ e, fault = e.fault ∧ g.Shows c e :=
  ⟨fun ops => Grammar.isFurthest_runAll .start ops, fun _ _ => rfl,
    fun _ h => Grammar.shows_of_failsWith h⟩

/-- A list of words. -/
def words : Grammar where
  root := "words"
  rules := [("words", .any [.named "a word" (.token "word")] fun ns => .value (.list ns))]

def wordsInput : Setting where
  input := .tokens [⟨0, "word", some "w"⟩, ⟨2, "number", some "1"⟩]

theorem holds_furthest_words :
    words.FailsWith wordsInput (.parse (.expected "a word") 2) ∧
      ∃ e : ParseError, Fault.parse (.expected "a word") 2 = e.fault ∧
        words.Shows wordsInput e := by
  have h : words.FailsWith wordsInput (.parse (.expected "a word") 2) := ⟨rfl, nofun, rfl⟩
  exact ⟨h, (holds_furthest words wordsInput).2.2 _ h⟩

/-- A rule that fails in the words for input that is left over. -/
def ownWords : Grammar where
  root := "r"
  rules := [("r", .fail (.other "did not parse further"))]

/-- Those words alone do not tell that the root has matched. -/
theorem not_stopsEarly_ownWords : ∃ e : ParseError,
    ownWords.FailsWith ⟨.tokens [], none⟩ e.fault ∧
      ¬ (e.problem.message = "did not parse further" ↔ ownWords.StopsEarly ⟨.tokens [], none⟩) := by
  refine ⟨⟨.other "did not parse further", 0⟩, ⟨rfl, nofun, rfl⟩, ?_⟩
  rintro ⟨hearly, -⟩
  obtain ⟨tree, s, hrun, -⟩ := hearly rfl
  cases hrun

end JayFrontEnd
