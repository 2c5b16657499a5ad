import JayFrontEnd.Proofs.Analysis.DeclarationOrder
import JayFrontEnd.Proofs.Program.Failure

/-!
# What a failure points at

A failure that names something points at it: at that name among the tokens of the module it is
attributed to, behind the other module's name and a dot if it is a name of that module, or in the
directive that asks for the module. Each phase takes its offsets from what it reads, and that has
been located among the tokens; a name that is declared twice is refused at the later place.
-/

namespace JayFrontEnd

/-- What the fault names stands among the tokens of the source, at the offset that it gives. -/
def Fault.PointsInto (source : Source) (ts : List Token) : Fault → Prop
  | unresolvedSymbol name offset | unknownType name offset => NamedAt ts name offset
  | duplicateSymbol name offset first link => NamedAt ts name offset ∧ NamedAt ts name first ∧
      first < offset ∧ ∃ p, source.position? first = some p ∧ link = p.link
  | unresolvedRemoteSymbol module name offset => MemberAt ts module name offset
  | unknownModule module offset => ∃ name, MemberAt ts module name offset
  | moduleLoad module (some offset) _ | parse (.unlocatedModule module) offset =>
      DirectiveAt ts module offset
  | _ => True

/-- What the fault names stands among the tokens of the source, unless it cannot be cut into tokens
and the fault says where. -/
def Fault.Placed (source : Source) (fault : Fault) : Prop :=
  (∃ ts, lex TokenRule.jay source.chars = .ok ts ∧ fault.PointsInto source ts) ∨
    lex TokenRule.jay source.chars = .error fault ∧ ∃ offset, fault = .unexpectedInput offset

variable {l : Locator} {config : CompileConfig} {source : Source} {fault : Fault}
  {m : ParsedModule} {ms : List ParsedModule} {f : CompileFailure} {v w tail : List Token}

theorem Fault.PointsInto.mono (h : fault.PointsInto source v) (hv : v <:+: w) :
    fault.PointsInto source w := by
  unfold PointsInto at h ⊢
  split at h
  · exact h.mono hv
  · exact h.mono hv
  · obtain ⟨hname, hfirst, hlt⟩ := h
    exact ⟨hname.mono hv, hfirst.mono hv, hlt⟩
  · exact h.mono hv
  · exact h.imp fun _ hm => hm.mono hv
  · exact h.mono hv
  · exact h.mono hv
  · trivial

/-! ## Phase by phase -/

/-- An error of a parse points at a directive if it names a module. -/
theorem ParseError.ArisesIn.pointsInto {err : ParseError} (h : err.ArisesIn w) (hw : Worded w) :
    err.fault.PointsInto source w := by
  cases h with
  | expectedToken => trivial
  | expected => trivial
  | unlocatedModule hts hk hs hl => exact hw.directiveAt hts hk hs hl

theorem placed_of_parse (h : l.parse source = .error fault) : fault.Placed source := by
  unfold Locator.parse at h
  cases hlex : lex TokenRule.jay source.chars with
  | error e =>
    obtain ⟨offset, rfl, -⟩ := boundary_of_lex_error hlex
    rw [hlex] at h
    cases h
    exact .inr ⟨hlex, offset, rfl⟩
  | ok ts =>
    rw [hlex] at h
    obtain ⟨_, hj⟩ := Jay.exists_points h
    obtain ⟨err, harises, -, rfl⟩ := hj.fault
    exact .inl ⟨ts, hlex, harises.pointsInto (worded_of_lex hlex)⟩

namespace ParsedModule.ReadFrom

/-- The tokens that a tree is read from are some of those of the module. -/
theorem placed (h : m.ReadFrom w tail) (hfault : fault.PointsInto m.source w) :
    fault.Placed m.source :=
  .inl ⟨_, h.tokens, hfault.mono (List.prefix_append w tail).isInfix⟩

theorem first_lt (h : m.ReadFrom w tail) {name link : String} {offset first : Nat}
    (hfault : m.scopes = .error (.duplicateSymbol name offset first link)) : first < offset := by
  have hin : Node.StatementsIn w m.tree.items := inOrder_of_spells h.spells
  have hdeclared := Event.declarations_statement.2 m.tree.items ScopeTree.root 1
  have hsorted : (Event.declarations m.tree.events).Pairwise (· < ·) :=
    (marks_sorted_of_lex_append h.tokens).sublist (hdeclared.trans (hin.places _ _))
  rw [m.scopes_eq, Except.map_eq_error] at hfault
  exact (Analyzer.WellFormed.ofModule m.name m.source).first_lt
    (located_events h.spells h.worded (List.infix_refl w)) hsorted hfault

theorem pointsInto_of_scopes (h : m.ReadFrom w tail) (hfault : m.scopes = .error fault) :
    fault.PointsInto m.source w := by
  cases h.located.2 fault hfault with
  | duplicateSymbol hname hfirst hp => exact ⟨hname, hfirst, h.first_lt hfault, _, hp, rfl⟩
  | typeMismatch => trivial
  | unknownType hname => exact hname

end ParsedModule.ReadFrom

theorem pointsInto_remoteFault (modules : List String) {r : RemoteRef}
    (h : MemberAt w r.module r.name r.position) :
    (remoteFault modules r).PointsInto source w := by
  unfold remoteFault
  split
  · exact h
  · exact ⟨r.name, h⟩

/-! ## All failures -/

/-- A module that is not loaded is asked for by a directive of the module that is told. -/
theorem placed_loadFailure {entry name : String} (hms : l.Discovers entry ms)
    {problem : LoadProblem} (hs : (loadFailure ms name problem).source = some source) :
    (loadFailure ms name problem).fault.Placed source := by
  unfold loadFailure at hs ⊢
  cases hfirst : firstImporter? ms name with
  | none =>
    rw [hfirst] at hs
    cases hs
  | some importer =>
    obtain ⟨m, i⟩ := importer
    rw [hfirst] at hs
    cases hs
    obtain ⟨hm, hi, rfl⟩ := firstImporter?_eq_some hfirst
    obtain ⟨w, tail, hread⟩ := (hms.parses m hm).exists_readFrom
    exact hread.placed
      (Jay.directiveAt_of_spells_root hread.spells hread.worded (List.infix_refl w) hi)

theorem placed_parsed (hparsed : parseAll l config = .ok ms) (hm : m ∈ ms)
    (h : ∀ {w tail}, m.ReadFrom w tail → fault.PointsInto m.source w) : fault.Placed m.source := by
  obtain ⟨ns, hns, -, hends⟩ := parseAll_eq_iff.1 hparsed
  cases hends
  obtain ⟨w, tail, hread⟩ := (hns.parses m hm).exists_readFrom
  exact hread.placed (h hread)

theorem placed_of_firstFailure {p : Phase} (h : FirstFailure l config p f)
    (hs : f.source = some source) : f.fault.Placed source := by
  cases h with
  | parse hms _ hends =>
    cases hends with
    | overLimit => exact placed_loadFailure hms hs
    | unloaded => exact placed_loadFailure hms hs
    | unparsed _ _ _ hparse =>
      cases hs
      exact placed_of_parse hparse
  | analyze hparsed _ hfault =>
    cases hs
    exact placed_parsed hparsed (by simp) fun hm => hm.pointsInto_of_scopes hfault
  | @linkLocal before after m t s i r hparsed _ _ ht hr =>
    cases hs
    refine placed_parsed hparsed (by simp) fun hm => ?_
    exact (hm.located.1 t ht).localRefs s r (List.mem_of_getElem? hr.use)
  | @linkRemote ms before after m t s i r hparsed hsplit _ _ _ ht hr =>
    cases hs
    refine placed_parsed hparsed (by simp [hsplit]) fun hm => pointsInto_remoteFault _ ?_
    exact (hm.located.1 t ht).remoteRefs s r (List.mem_of_getElem? hr.use)

/-- What a failure names stands in the text of the module it is attributed to, at the offset that it
gives. -/
theorem compile_failure_points (h : compile l config = .error f) (hs : f.source = some source) :
    l.load f.module none = .ok source ∧ f.fault.Placed source := by
  rcases compile_cases l config with ⟨⟨table, htable⟩, -⟩ | ⟨g, hg, hfirst⟩
  · cases htable.symm.trans h
  · cases hg.symm.trans h
    refine ⟨?_, placed_of_firstFailure hfirst hs⟩
    rcases told_of_firstFailure hfirst with ⟨-, problem, rfl⟩ | ⟨-, told, htold, hload, -⟩
    · cases hs
    · cases hs.symm.trans htold
      exact hload

theorem compile_failure_points_declaredTwice : ∃ ts source,
    compile declaredTwice {} = .error ⟨"lib", .analyze,
      .duplicateSymbol "x" 16 10 "lib.j:2:5", some source⟩ ∧
    lex TokenRule.jay source.chars = .ok ts ∧ NamedAt ts "x" 16 ∧ NamedAt ts "x" 10 := by
  have htwice : (compile declaredTwice {}).map (fun _ => ()) = .error ⟨"lib", .analyze,
      .duplicateSymbol "x" 16 10 "lib.j:2:5", some ⟨[⟨"lib.j", "// ü\nvar x\nvar x\n"⟩]⟩⟩ := by
    decide +kernel
  have htwice := Except.map_eq_error.1 htwice
  obtain ⟨-, ⟨ts, hlex, hname, hfirst, -⟩ | ⟨-, _, hfault⟩⟩ := compile_failure_points htwice rfl
  · exact ⟨ts, _, htwice, hlex, hname, hfirst⟩
  · cases hfault

end JayFrontEnd
