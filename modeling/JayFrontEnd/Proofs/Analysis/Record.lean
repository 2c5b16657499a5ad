import JayFrontEnd.Proofs.Analysis.Faults
import JayFrontEnd.Proofs.Analysis.Outline
import JayFrontEnd.Proofs.Outcome
import JayFrontEnd.Proofs.Repetition

/-!
# What an analysis records

`Records t fs u` says that the scope tree `u` is `t` with what is found in `fs`: a scope more for
each scope in it, a symbol for each declared name, and a use for each name of which the scope has
none. An analysis that succeeds has recorded what is found in the tree, and nothing else.
-/

namespace JayFrontEnd

def LocalRef.same (a b : LocalRef) : Bool := a.name == b.name

def RemoteRef.same (a b : RemoteRef) : Bool := a.module == b.module && a.name == b.name

def Scope.frame (x : Scope) : (String × ScopeKind) × Option ScopeId := ((x.name, x.kind), x.parent)

/-- Where a symbol is declared. -/
def Symbol.site (y : Symbol) : ScopeId × String × Nat := (y.scope, y.name, y.position)

namespace Finding

def mentionsIn (s : ScopeId) (fs : List Finding) : List Mention :=
  (within s fs).filterMap Sum.getLeft?

def declared (fs : List Finding) : List (ScopeId × String × Nat) :=
  fs.filterMap fun f => (f.2.getLeft?.bind Mention.declaration?).map (f.1, ·)

end Finding

open Finding

/-! ## Scope trees -/

namespace ScopeTree

/-- The second tree is the first one, of a module of some name, with what is found. -/
structure Records (module : String) (t : ScopeTree) (fs : List Finding) (u : ScopeTree) : Prop where
  frames : u.scopes.map Scope.frame =
    t.scopes.map Scope.frame ++ (opened fs).map fun f => (f.2.scopeHead module, some f.1)
  symbols : u.symbols.map Symbol.site = t.symbols.map Symbol.site ++ declared fs
  localRefs : ∀ s, u.localRefs s =
    ((mentionsIn s fs).filterMap Mention.localRef?).foldl (addNew LocalRef.same) (t.localRefs s)
  remoteRefs : ∀ s, u.remoteRefs s =
    ((mentionsIn s fs).filterMap Mention.remoteRef?).foldl (addNew RemoteRef.same) (t.remoteRefs s)

namespace Records

variable {module : String} {t u v : ScopeTree} {fs gs : List Finding} {s : ScopeId}

theorem length (h : t.Records module fs u) :
    u.scopes.length = t.scopes.length + (opened fs).length := by
  simpa using congrArg List.length h.frames

theorem refl (t : ScopeTree) : t.Records module [] t where
  frames := (List.append_nil _).symm
  symbols := (List.append_nil _).symm
  localRefs _ := rfl
  remoteRefs _ := rfl

theorem trans (h : t.Records module fs u) (h' : u.Records module gs v) :
    t.Records module (fs ++ gs) v where
  frames := by rw [h'.frames, h.frames, opened_append, List.map_append, List.append_assoc]
  symbols := by
    rw [h'.symbols, h.symbols, declared, declared, declared, List.filterMap_append,
      List.append_assoc]
  localRefs s := by
    simp only [h'.localRefs, h.localRefs, mentionsIn, within_append, List.filterMap_append,
      List.foldl_append]
  remoteRefs s := by
    simp only [h'.remoteRefs, h.remoteRefs, mentionsIn, within_append, List.filterMap_append,
      List.foldl_append]

theorem frames_modifyScope {f : Scope → Scope} (hf : ∀ x, (f x).frame = x.frame) :
    (t.modifyScope s f).scopes.map Scope.frame = t.scopes.map Scope.frame :=
  map_modify hf _ _

theorem mentionsIn_mentions (s r : ScopeId) (ms : List Mention) :
    mentionsIn r (mentions s ms) = if s = r then ms else [] := by
  rw [mentionsIn, within_mentions]
  split <;> simp [Function.comp_def]

/-! ### The operations -/

theorem addChild (t : ScopeTree) (s : ScopeId) {name : String} {kind : ScopeKind} {n : Node}
    (hn : n.scopeHead module = (name, kind)) :
    t.Records module [(s, .inr n)] (t.addChild s name kind).2 where
  frames := by
    have hold := frames_modifyScope (t := t) (s := s)
      (f := fun x => { x with children := x.children ++ [t.scopes.length] }) fun _ => rfl
    rw [ScopeTree.addChild, List.map_append, hold, opened_cons_scope, List.map_cons,
      List.map_cons, hn]
    rfl
  symbols := (List.append_nil _).symm
  localRefs r := by
    rw [localRefs_addChild, mentionsIn, within_cons_scope]
    split <;> rfl
  remoteRefs r := by
    rw [remoteRefs_addChild, mentionsIn, within_cons_scope]
    split <;> rfl

theorem define {n : Node} {kind : SymbolKind} {i : SymbolId}
    (h : t.define s n.textD kind n.position = .ok (i, u)) :
    t.Records module (mentions s [.declared n]) u where
  frames := by
    obtain ⟨-, -, rfl⟩ := define_eq_ok h
    rw [opened_mentions, List.map_nil, List.append_nil]
    exact frames_modifyScope fun _ => rfl
  symbols := by
    rw [symbols_of_define h, List.map_append]
    rfl
  localRefs r := by
    rw [localRefs_of_define h, mentionsIn_mentions]
    split <;> rfl
  remoteRefs r := by
    rw [remoteRefs_of_define h, mentionsIn_mentions]
    split <;> rfl

theorem addLocalRef (hs : s < t.scopes.length) (n : Node) :
    t.Records module (mentions s [.used n]) (t.addLocalRef s n.textD n.position) where
  frames := by
    rw [opened_mentions, List.map_nil, List.append_nil, ScopeTree.addLocalRef]
    split
    · rfl
    · exact frames_modifyScope fun _ => rfl
  symbols := by
    rw [(SameDeclarations.addLocalRef ..).symbols]
    exact (List.append_nil _).symm
  localRefs r := by
    rw [localRefs_addLocalRef hs, mentionsIn_mentions]
    by_cases hr : s = r
    · subst hr
      simp only [true_and, if_true]
      show _ = addNew LocalRef.same (t.localRefs s) ⟨n.textD, n.position, .pending⟩
      simp only [addNew_eq, LocalRef.same, beq_iff_eq, ne_eq, eq_comm (a := n.textD)]
    · rw [if_neg fun h => hr h.1, if_neg hr]
      rfl
  remoteRefs r := by
    rw [remoteRefs_addLocalRef, mentionsIn_mentions]
    split <;> rfl

theorem addRemoteRef (hs : s < t.scopes.length) (m n : Node) :
    t.Records module (mentions s [.called m n])
      (t.addRemoteRef s m.textD n.textD n.position) where
  frames := by
    rw [opened_mentions, List.map_nil, List.append_nil, ScopeTree.addRemoteRef]
    split
    · rfl
    · exact frames_modifyScope fun _ => rfl
  symbols := by
    rw [(SameDeclarations.addRemoteRef ..).symbols]
    exact (List.append_nil _).symm
  localRefs r := by
    rw [localRefs_addRemoteRef, mentionsIn_mentions]
    split <;> rfl
  remoteRefs r := by
    rw [remoteRefs_addRemoteRef hs, mentionsIn_mentions]
    by_cases hr : s = r
    · subst hr
      simp only [true_and, if_true]
      show _ = addNew RemoteRef.same (t.remoteRefs s) ⟨m.textD, n.textD, n.position, .pending⟩
      simp only [addNew_eq, RemoteRef.same, Bool.and_eq_true, beq_iff_eq, eq_comm (a := m.textD),
        eq_comm (a := n.textD)]
    · rw [if_neg fun h => hr h.1, if_neg hr]
      rfl

theorem setKind (t : ScopeTree) (i : SymbolId) (kind : SymbolKind) :
    t.Records module [] (t.setKind i kind) where
  frames := (List.append_nil _).symm
  symbols := by
    have hsites := map_modify (g := Symbol.site) (f := fun y => { y with kind }) (fun _ => rfl)
      t.symbols i
    exact hsites.trans (List.append_nil _).symm
  localRefs _ := rfl
  remoteRefs _ := rfl

end Records

end ScopeTree

/-! ## Analyzers -/

namespace Analyzer

/-- One analyzer has recorded what is found since the other, and is in the same scope. -/
structure Records (module : String) (a : Analyzer) (fs : List Finding) (b : Analyzer) : Prop where
  scopes : a.scopes.Records module fs b.scopes
  current : b.current = a.current

variable {module : String} {a b c : Analyzer} {fs gs : List Finding}

theorem Records.refl (a : Analyzer) : a.Records module [] a := ⟨.refl _, rfl⟩

theorem Records.trans (h : a.Records module fs b) (h' : b.Records module gs c) :
    a.Records module (fs ++ gs) c :=
  ⟨h.scopes.trans h'.scopes, h'.current.trans h.current⟩

end Analyzer

namespace Event

/-- Who follows the events in some scope, with a number for the next one, records what is found. -/
def Finds (module : String) (es : List Event) (fs : ScopeId → ScopeId → List Finding) : Prop :=
  ∀ a b : Analyzer, a.WellFormed → a.follow es = .ok b →
    a.Records module (fs a.current a.scopes.scopes.length) b

/-- Who follows the events records mentions of names in the scope he is in. -/
abbrev Mentions (module : String) (es : List Event) (ms : List Mention) : Prop :=
  Finds module es fun s _ => mentions s ms

variable {module : String} {es es' : List Event} {fs gs : ScopeId → ScopeId → List Finding}
  {ms ms' : List Mention}

theorem Finds.append (h : Finds module es fs) (h' : Finds module es' gs) :
    Finds module (es ++ es') fun s next =>
      fs s next ++ gs s (next + (opened (fs s next)).length) := by
  intro a c ha hc
  obtain ⟨b, hb, hc⟩ := Analyzer.follow_append_eq_ok hc
  have hfs := h a b ha hb
  have hgs := h' b c (ha.follow hb).wellFormed hc
  rw [hfs.current, hfs.scopes.length] at hgs
  exact hfs.trans hgs

theorem Finds.whenOk {α : Type} {x : Except Fault α} {k : α → List Event}
    (h : ∀ y, x = .ok y → Finds module (k y) fs) : Finds module (Event.whenOk x k) fs := by
  intro a b ha hb
  obtain ⟨y, hy, hb⟩ := Analyzer.follow_whenOk_eq_ok hb
  exact h y hy a b ha hb

theorem Finds.inScope {name : String} {kind : ScopeKind} {n : Node}
    (hn : n.scopeHead module = (name, kind)) (h : Finds module es fs) :
    Finds module (.enter name kind :: es ++ [.leave]) fun s next =>
      (s, .inr n) :: fs next (next + 1) := by
  intro a c ha hc
  obtain ⟨_, ⟨⟩, hc⟩ := Analyzer.follow_cons_eq_ok (List.cons_append ▸ hc)
  obtain ⟨b, hb, hc⟩ := Analyzer.follow_append_eq_ok hc
  have he := (ha.enterScope name kind).wellFormed
  have hinner := h _ b he hb
  have hleave := ha.exitScope_of_enterScope (he.follow hb) hinner.current
  obtain ⟨_, ⟨⟩, ⟨⟩⟩ := Analyzer.follow_cons_eq_ok hc
  rw [hleave]
  have hlength : (a.enterScope name kind).scopes.scopes.length = a.scopes.scopes.length + 1 :=
    ScopeTree.length_addChild
  have hscopes := hinner.scopes
  rw [hlength] at hscopes
  exact ⟨.trans (.addChild a.scopes a.current hn) hscopes, rfl⟩

namespace Mentions

theorem nil : Mentions module [] [] := by
  rintro a _ - ⟨⟩
  exact .refl a

theorem append (h : Mentions module es ms) (h' : Mentions module es' ms') :
    Mentions module (es ++ es') (ms ++ ms') := by
  intro a c ha hc
  have hfinds := Finds.append h h' a c ha hc
  simpa only [Finding.mentions, List.map_append] using hfinds

theorem cons {e : Event} {m : Mention} (h : Mentions module [e] [m])
    (h' : Mentions module es ms) : Mentions module (e :: es) (m :: ms) :=
  h.append h'

theorem andThen (h : Mentions module es ms) (h' : Finds module es' fs) :
    Finds module (es ++ es') fun s next => mentions s ms ++ fs s next := by
  have hfinds := Finds.append h h'
  simpa only [opened_mentions, List.length_nil, Nat.add_zero] using hfinds

theorem declare (n : Node) (kind : SymbolKind) :
    Mentions module [.declare n kind] [.declared n] := by
  intro a c _ hc
  obtain ⟨b, hb, ⟨⟩⟩ := Analyzer.follow_cons_eq_ok hc
  obtain ⟨i, scopes, hdefine, rfl⟩ := Analyzer.register_eq_ok hb
  exact ⟨.define hdefine, rfl⟩

theorem use (n : Node) : Mentions module [.use n] [.used n] := by
  rintro a _ ha ⟨⟩
  exact ⟨.addLocalRef ha.current_lt n, rfl⟩

theorem useRemote (m n : Node) : Mentions module [.useRemote m n] [.called m n] := by
  rintro a _ ha ⟨⟩
  exact ⟨.addRemoteRef ha.current_lt m n, rfl⟩

theorem assign (n value : Node) : Mentions module [.assign n value] [] := by
  intro a c _ hc
  obtain ⟨b, hb, ⟨⟩⟩ := Analyzer.follow_cons_eq_ok hc
  obtain rfl | ⟨t, i, y, -, -, -, rfl⟩ := Analyzer.assign_eq_ok hb
  · exact .refl c
  · exact ⟨.setKind .., rfl⟩

end Mentions

/-! ### Expressions -/

theorem mentions_expression :
    (∀ n, Mentions module (ofExpression n) n.namesIn) ∧
      (∀ n, Mentions module (ofCall n) (n.callee ++ n.arguments.flatMap Node.namesIn)) ∧
      ∀ ns, Mentions module (ofExpressions ns) (ns.flatMap Node.namesIn) := by
  refine Node.expression_induction ?_ ?_ ?_ ?_ ?_ ?_ ?_
  · intro n tag ht hop ihl ihr
    rw [ofExpression_operator ht hop, Node.namesIn_operator ht hop]
    refine .whenOk ?_
    rintro ⟨l, hl⟩ -
    rw [Node.part_eq hl, List.flatMap_singleton]
    refine Mentions.append (ihl l hl) (.whenOk ?_)
    rintro ⟨r, hr⟩ -
    rw [Node.part_eq hr, List.flatMap_singleton]
    exact ihr r hr
  · intro n ht ih
    rwa [ofExpression_call ht, Node.namesIn_call ht]
  · intro n tag ht hop hc
    rw [ofExpression_other ht hop hc, Node.namesIn_other ht hop hc]
    exact .nil
  · intro n ht
    rw [ofExpression_leaf ht, Node.namesIn_leaf ht]
    split
    · exact .use n
    · exact .nil
  · intro n ih
    rw [ofCall]
    refine .whenOk ?_
    rintro ⟨name, hname⟩ -
    rw [Node.callee, Node.part_eq hname, List.map_singleton]
    refine Mentions.cons ?_ ?_
    · cases n.field? "module" with
      | none => exact .use name
      | some m => exact .useRemote m name
    · unfold Node.arguments
      cases hargs : n.field? "args" with
      | none =>
        rw [Option.map_none, Option.getD_none, ofExpressions]
        exact .nil
      | some args => exact ih args hargs
  · rw [ofExpressions]
    exact .nil
  · intro n ns ihn ihs
    rw [ofExpressions, List.flatMap_cons]
    exact ihn.append ihs

/-! ### Statements -/

theorem mentions_value (name value : Node) :
    Mentions module (ofValue name value) value.namesIn := by
  rw [← List.append_nil value.namesIn]
  exact (mentions_expression.1 value).append (.assign name value)

theorem mentions_variableDecl (n : Node) : Mentions module (ofVariableDecl n)
    ((n.part "name").map .declared ++ (n.part "value").flatMap Node.namesIn) := by
  refine .whenOk fun ⟨name, hname⟩ _ => .whenOk fun type _ => ?_
  rw [Node.part_eq hname]
  refine Mentions.cons (.declare name _) ?_
  cases hvalue : n.field? "value" with
  | none =>
    rw [Node.part, hvalue]
    exact .nil
  | some value =>
    rw [Node.part_eq hvalue, List.flatMap_singleton]
    exact mentions_value name value

theorem mentions_assignment (n : Node) : Mentions module (ofAssignment n)
    ((n.part "name").map .used ++ (n.part "value").flatMap Node.namesIn) := by
  refine .whenOk fun ⟨name, hname⟩ _ => .whenOk fun ⟨value, hvalue⟩ _ => ?_
  rw [Node.part_eq hname, Node.part_eq hvalue, List.flatMap_singleton]
  exact Mentions.cons (.use name) (mentions_value name value)

theorem map_params {ps : List Node} {params : List (Node × PrimitiveType)}
    (h : Event.params ps = .ok params) : params.map (·.1) = ps.flatMap (·.part "name") := by
  induction ps generalizing params with
  | nil => cases h; rfl
  | cons p ps ih =>
    simp only [Event.params, Except.bind_eq_ok] at h
    obtain ⟨⟨name, hname⟩, -, ⟨type, -⟩, -, t, -, rest, hrest, ⟨⟩⟩ := h
    rw [List.map_cons, ih hrest, List.flatMap_cons, Node.part_eq hname, List.singleton_append]

theorem mentions_params (params : List (Node × PrimitiveType)) :
    Mentions module (params.map fun p => .declare p.1 (.variable (some p.2)))
      (params.map fun p => .declared p.1) := by
  induction params with
  | nil => exact .nil
  | cons p params ih => exact Mentions.cons (.declare p.1 _) ih

theorem finds_functionDecl {n : Node} (ht : NodeTag.ofName? n.kind = some .functionDecl)
    (ih : ∀ body, n.field? "body" = some body →
      Finds module (ofStatements body.items) fun s next => Node.recordAll s next body.items) :
    Finds module (ofStatement n) fun s next => n.record s next := by
  have hopens : n.opensScope = true := by rw [Node.opensScope, ht]
  rw [Analysis.ofStatement_functionDecl ht]
  simp only [Node.record_of_opensScope hopens]
  refine .whenOk fun ⟨name, hname⟩ _ => .whenOk fun ⟨body, hbody⟩ _ => ?_
  refine .whenOk fun params hparams => .whenOk fun returns _ => ?_
  have hmentions : n.mentions = [.declared name] := by
    rw [Node.mentions, ht]
    exact congrArg (List.map _) (Node.part_eq hname)
  have hparameters : n.parameters.map .declared = params.map fun p => Mention.declared p.1 := by
    rw [Node.parameters, ht, ← map_params hparams, List.map_map]
    rfl
  have hinner : n.innerStatements = body.items := by
    rw [Node.innerStatements, ht, hbody]
    rfl
  have hhead : n.scopeHead module = (name.textD, .function) := by
    rw [Node.scopeHead, ht, hname]
    rfl
  rw [hmentions, hparameters, hinner]
  exact Mentions.andThen (.declare name _)
    (.inScope hhead (Mentions.andThen (mentions_params params) (ih body hbody)))

theorem finds_of_mentions {n : Node} (hn : n.opensScope = false)
    (h : Mentions module es n.mentions) : Finds module es fun s next => n.record s next := by
  simpa only [Node.record_of_not_opensScope hn] using h

theorem finds_statement :
    (∀ n, Finds module (ofStatement n) fun s next => n.record s next) ∧
      ∀ ns, Finds module (ofStatements ns) fun s next => Node.recordAll s next ns := by
  refine Node.statement_induction ?_ ?_ ?_ ?_ ?_ ?_ ?_ ?_
  · intro n ht
    rw [ofStatement, ht]
    refine finds_of_mentions (by rw [Node.opensScope, ht]) ?_
    rw [Node.mentions, ht]
    exact mentions_variableDecl n
  · intro n ht ih
    exact finds_functionDecl ht ih
  · intro n ht
    rw [ofStatement, ht]
    refine finds_of_mentions (by rw [Node.opensScope, ht]) ?_
    rw [Node.mentions, ht]
    exact mentions_assignment n
  · intro n ht
    rw [ofStatement, ht]
    refine finds_of_mentions (by rw [Node.opensScope, ht]) ?_
    rw [Node.mentions, ht]
    exact mentions_expression.2.1 n
  · intro n ht ih
    rw [ofStatement, ht]
    have hopens : n.opensScope = true := by rw [Node.opensScope, ht]
    have hhead : n.scopeHead module = ("block", .block) := by rw [Node.scopeHead, ht]
    simp only [Node.record_of_opensScope hopens]
    have hmentions : n.mentions = [] := by rw [Node.mentions, ht]
    have hparameters : n.parameters = [] := by rw [Node.parameters, ht]
    have hinner : n.innerStatements = n.items := by rw [Node.innerStatements, ht]
    rw [hmentions, hparameters, hinner]
    exact .inScope hhead ih
  · intro n hother
    have hplain : n.opensScope = false ∧ n.mentions = [] := by
      unfold Node.opensScope Node.mentions
      cases ht : NodeTag.ofName? n.kind with
      | none => exact ⟨rfl, rfl⟩
      | some tag =>
        have := hother tag ht
        cases tag <;> first | exact ⟨rfl, rfl⟩ | exact absurd (by decide) this
    rw [ofStatement_other hother]
    refine finds_of_mentions hplain.1 ?_
    rw [hplain.2]
    exact .nil
  · simp only [ofStatements, Node.recordAll]
    exact Mentions.nil
  · intro n ns ihn ihs
    simp only [ofStatements, Node.recordAll_cons]
    exact ihn.append ihs

end Event

/-- The analysis of a module records what is found in its tree. -/
theorem Analyzer.records_of_run {module : String} {source : Source} {tree : Node} {a : Analyzer}
    (h : (Analyzer.ofModule module source).run tree = (.ok (), a)) :
    (ScopeTree.ofModule module).Records module tree.moduleRecord a.scopes := by
  have ha := Analyzer.WellFormed.ofModule module source
  exact (Event.finds_statement.2 tree.items _ a ha ((Analyzer.run_eq_ok ha).1 h)).scopes

end JayFrontEnd
