import JayFrontEnd.Proofs.Program.Compile

/-!
# What analysis finds and what linking finds

The analysis looks a name up among the declarations it has seen, linking among all of them. The two
find one scope if that scope had the name when the analysis looked; otherwise linking finds a nearer
scope, which declares the name later. So the type of a value is the type of the variable it is
assigned to, as linking sees it, if the variable was there at the time.
-/

namespace JayFrontEnd

open ScopeTree

def ScopeTree.symbolOf? (t : ScopeTree) (s : ScopeId) (name : String) : Option Symbol :=
  (t.declared? s name).bind t.symbol?

/-- The name that an event looks up among the declarations. -/
def Event.lookedUp? : Event → Option Node
  | use n | assign n _ => some n
  | _ => none

/-- The analyzer comes to these events, in the course of the module's own. -/
def Module.Reaches (m : Module) (a : Analyzer) (es : List Event) : Prop :=
  ∃ before after, m.tree.events = before ++ (es ++ after) ∧
    (Analyzer.ofModule m.name m.source).follow before = .ok a

/-- A literal of a type, or operators between such literals. -/
inductive Node.MadeOf (t : PrimitiveType) : Node → Prop where
  | literal {n : Node} {k : TokenKind} : NodeTag.ofName? n.kind = none →
      TokenKind.ofName? n.kind = some k → PrimitiveType.ofLiteral? k = some t → MadeOf t n
  | operator {n l r : Node} {tag : NodeTag} : NodeTag.ofName? n.kind = some tag →
      tag.isOperator = true → n.field? "lhs" = some l → n.field? "rhs" = some r →
      MadeOf t l → MadeOf t r → MadeOf t n

theorem Node.MadeOf.typeIn {t : PrimitiveType} {n : Node} (h : n.MadeOf t)
    (known : String → Option PrimitiveType) : n.typeIn known = some t := by
  induction h with
  | @literal n k htag hk ht =>
    rw [typeIn_leaf known htag, hk]
    split
    · next he =>
      cases he
      cases ht
    · exact ht
  | @operator n l r tag htag hop hl hr _ _ ihl ihr =>
    rw [typeIn_operator known htag hop, hl, hr, Option.bind_some, Option.bind_some, ihl, ihr,
      Analysis.operatorType, if_pos rfl]

namespace Analyzer

variable {a b c : Analyzer} {name : String}

/-- The symbol found is the one of the nearest scope that declares the name. -/
theorem WellFormed.visible?_eq_some (h : a.WellFormed) {i : SymbolId} {y : Symbol}
    (hv : a.visible? name = some (i, y)) :
    a.scopes.Binds name a.current y.scope ∧ a.scopes.declared? y.scope name = some i := by
  obtain ⟨hi, hy⟩ := visible?_eq_some_iff.1 hv
  obtain ⟨d, hb, hd⟩ := h.scopes.lookup?_eq_some_iff.1 hi
  obtain ⟨z, hz, -, rfl⟩ := h.scopes.declared?_iff.1 hd
  obtain rfl : y = z := Option.some.inj (hy.symm.trans hz)
  exact ⟨hb, hd⟩

theorem WellFormed.exists_visible? (h : a.WellFormed) {d : ScopeId}
    (hb : a.scopes.Binds name a.current d) :
    ∃ i y, a.visible? name = some (i, y) ∧ a.scopes.declared? d name = some i := by
  obtain ⟨i, hi⟩ := hb.declares
  obtain ⟨y, hy, -, -⟩ := h.scopes.declared?_iff.1 hi
  exact ⟨i, y, visible?_eq_some_iff.2 ⟨h.scopes.lookup?_eq_some_iff.2 ⟨d, hb, hi⟩, hy⟩, hi⟩

/-- An assignment of a known type leaves the nearest variable with that type. -/
theorem kind_of_assign {i : SymbolId} {y : Symbol} {t : PrimitiveType} {position : Nat}
    (hv : a.visible? name = some (i, y)) (h : a.assign name (some t) position = .ok b) :
    ∃ z, b.scopes.symbol? i = some z ∧ (z.isFunction = true ∨ z.kind = .variable (some t)) := by
  have hy := (visible?_eq_some_iff.1 hv).2
  unfold assign at h
  rw [hv] at h
  rcases y with ⟨n, ⟨_ | expected⟩ | ⟨params, returns⟩, p, s⟩
  · cases h
    exact ⟨⟨n, .variable (some t), p, s⟩, by simp [symbol?_setKind, hy], .inr rfl⟩
  · simp only at h
    split at h
    · next he => cases h; exact ⟨_, hy, .inr (he ▸ rfl)⟩
    · cases h
  · cases h
    exact ⟨_, hy, .inl rfl⟩

/-- Giving a name a value made of literals leaves the nearest variable with their type. -/
theorem WellFormed.kind_of_value (h : a.WellFormed) {n v : Node} {d : ScopeId} {t : PrimitiveType}
    (hd : a.scopes.Binds n.textD a.current d) (hv : v.MadeOf t)
    (hb : a.follow (Event.ofValue n v) = .ok b) :
    ∃ i z, b.scopes.declared? d n.textD = some i ∧ b.scopes.symbol? i = some z ∧
      (z.isFunction = true ∨ z.kind = .variable (some t)) := by
  obtain ⟨c, hc, hb⟩ := follow_append_eq_ok hb
  obtain ⟨b', hb', hnil⟩ := follow_cons_eq_ok hb
  cases hnil
  obtain ⟨hsame, hcur⟩ := sameDeclarations_of_follow_uses (Event.isUse_of_mem.1 v) hc
  have hcw := (h.follow hc).wellFormed
  have hd' : c.scopes.Binds n.textD c.current d := hcur ▸ hd.of_sameDeclarations hsame
  obtain ⟨i, y, hvis, hi⟩ := hcw.exists_visible? hd'
  have hassign : c.assign n.textD (some t) v.position = .ok b := hv.typeIn _ ▸ hb'
  obtain ⟨z, hz, hkind⟩ := kind_of_assign hvis hassign
  exact ⟨i, z, (hcw.assign hassign).grows.declared? hi, hz, hkind⟩

/-- What a name was declared to be is kept to the end, with any type it had. -/
theorem Advances.symbolOf?_eq (h : a.Advances b) {d : ScopeId} {i : SymbolId} {z : Symbol}
    (hd : a.scopes.declared? d name = some i) (hz : a.scopes.symbol? i = some z) :
    ∃ k, z.kind.SettlesTo k ∧ b.scopes.symbolOf? d name = some { z with kind := k } := by
  obtain ⟨k, hk, hy⟩ := h.grows.symbol? hz
  refine ⟨k, hk, ?_⟩
  rw [ScopeTree.symbolOf?, h.grows.declared? hd, Option.bind_some, hy]

end Analyzer

theorem ScopeTree.SameDeclarations.symbolOf? {t u : ScopeTree} (h : SameDeclarations t u)
    (s : ScopeId) (name : String) : u.symbolOf? s name = t.symbolOf? s name := by
  unfold ScopeTree.symbolOf? ScopeTree.symbol?
  rw [h.declared?, h.symbols]

theorem SymbolKind.SettlesTo.isFunction {y : Symbol} {k : SymbolKind} (h : y.kind.SettlesTo k)
    (hy : y.isFunction = true) : Symbol.isFunction { y with kind := k } = true := by
  obtain ⟨n, kind, p, s⟩ := y
  cases h with
  | same => exact hy
  | typed t => cases hy

/-! ## Points of an analysis -/

namespace Module.History

variable {table : ModuleTable} {m : Module} {a b c : Analyzer} {t : ScopeTree} {es : List Event}

/-- From any point that an analysis reaches it goes on to its end. -/
theorem reaches (h : m.History table a t) (hr : m.Reaches b es) :
    b.WellFormed ∧ ∃ c, b.follow es = .ok c ∧ c.WellFormed ∧ c.Advances a := by
  obtain ⟨before, after, hevents, hb⟩ := hr
  have hwf := ((Analyzer.WellFormed.ofModule ..).follow hb).wellFormed
  obtain ⟨b', hb', hes⟩ := Analyzer.follow_append_eq_ok (hevents ▸ h.follow)
  obtain rfl : b = b' := Except.ok.inj (hb.symm.trans hb')
  obtain ⟨c, hc, hafter⟩ := Analyzer.follow_append_eq_ok hes
  have hc' := (hwf.follow hc).wellFormed
  exact ⟨hwf, c, hc, hc', hc'.follow hafter⟩

/-- The analysis comes to all statements of the tree, those in functions and blocks included. -/
theorem exists_reaches (h : m.History table a t) {stmt : Node} (hs : stmt.IsAmong m.tree.items) :
    ∃ b, m.Reaches b (Event.ofStatement stmt) := by
  obtain ⟨before, after, hevents⟩ : ∃ before after,
      m.tree.events = before ++ (Event.ofStatement stmt ++ after) :=
    Analyzer.ofStatements_of_isAmong hs h.follow
  obtain ⟨b, hb, -⟩ := Analyzer.follow_append_eq_ok (hevents ▸ h.follow)
  exact ⟨b, before, after, hevents, hb⟩

/-- What linking finds for a name that the analysis has found before: the same scope if that has the
name by then, and otherwise a scope inside it. -/
theorem binds_later (h : m.History table a t) (hb : b.WellFormed) (hba : b.Advances a)
    {name : String} {d e : ScopeId} (he : b.scopes.Binds name b.current e)
    (hd : m.scopes.Binds name b.current d) :
    m.scopes.Within e d ∧ (e = d ↔ (b.scopes.declared? d name).isSome) := by
  have hd' : a.scopes.Binds name b.current d := hd.of_sameDeclarations h.declarations.symm
  obtain ⟨hw, hiff⟩ := hba.grows.binds_later hb.scopes hb.current_lt he hd'
  exact ⟨hw.of_sameDeclarations h.declarations, hiff⟩

theorem exists_localRef (h : m.History table a t) {n : Node} (hr : m.Reaches b [.use n]) :
    ∃ r ∈ m.scopes.localRefs b.current, r.name = n.textD := by
  obtain ⟨hb, c, hc, -, hca⟩ := h.reaches hr
  obtain ⟨x, hx, hname⟩ : ∃ x ∈ c.scopes.localRefs b.current, x.name = n.textD := by
    cases hc
    exact exists_localRef_addLocalRef hb.current_lt
  have hx' : (x.name, x.position) ∈ (m.scopes.localRefs b.current).map fun r =>
      (r.name, r.position) := by
    rw [h.remotely.localRefs, h.locally.uses]
    exact List.mem_map.2 ⟨x, (hca.grows.localRefs _).subset hx, rfl⟩
  obtain ⟨r, hr, he⟩ := List.mem_map.1 hx'
  exact ⟨r, hr, (Prod.mk.inj he).1.trans hname⟩

end Module.History

/-- What can be read off the first module of a compiled program, and off the analyzer that has
followed so many of its events. -/
def readAfter {β : Type} (l : Locator) (count : Nat) (f : Module → Analyzer → β) : Option β := do
  let table ← (compile l {}).toOption
  let m ← table.modules.head?
  let b ← ((Analyzer.ofModule m.name m.source).follow (m.tree.events.take count)).toOption
  some (f m b)

theorem readAfter_eq_some {β : Type} {l : Locator} {count : Nat} {f : Module → Analyzer → β} {x : β}
    (h : readAfter l count f = some x) :
    ∃ table m b, compile l {} = .ok table ∧ m ∈ table.modules ∧
      (Analyzer.ofModule m.name m.source).follow (m.tree.events.take count) = .ok b ∧
      f m b = x := by
  simp only [readAfter, Option.bind_eq_bind, Option.bind_eq_some_iff, Except.toOption_eq_some] at h
  obtain ⟨table, hc, m, hm, b, hb, hx⟩ := h
  exact ⟨table, m, b, hc, List.mem_of_head? hm, hb, Option.some.inj hx⟩

def nameAt (position : Nat) (name : String) : Node :=
  .ofToken ⟨position, "IDENTIFIER", some name⟩

def integerAt (position : Nat) (text : String) : Node := .ofToken ⟨position, "INTEGER", some text⟩

theorem madeOf_integerAt (position : Nat) (text : String) : (integerAt position text).MadeOf .int :=
  .literal (k := .integer) rfl rfl rfl

variable {l : Locator} {config : CompileConfig} {table : ModuleTable} {m : Module} {b : Analyzer}

/-- If a name has a symbol where the analysis looks it up, its use in that scope is resolved to the
symbol's scope or to one inside it: to the symbol's own scope if and only if the scope that it is
resolved to has the name already. -/
theorem resolved_of_visible (h : compile l config = .ok table) (hm : m ∈ table.modules)
    {e : Event} {n : Node} {i : SymbolId} {y : Symbol} (hr : m.Reaches b [e])
    (hn : e.lookedUp? = some n) (hv : b.visible? n.textD = some (i, y)) :
    (∀ r ∈ m.scopes.localRefs b.current, r.name = n.textD → ∃ d, r.status = .resolved d ∧
      m.scopes.Within y.scope d ∧ (y.scope = d ↔ (b.scopes.declared? d n.textD).isSome)) ∧
      (e = .use n → ∃ r ∈ m.scopes.localRefs b.current, r.name = n.textD) := by
  obtain ⟨a, t, hist⟩ := exists_history h hm
  refine ⟨fun r hmem hname => ?_, ?_⟩
  · obtain ⟨hb, c, hc, hcw, hca⟩ := hist.reaches hr
    obtain ⟨d, hst, hd⟩ := hist.resolved hmem
    have hadv : b.Advances a := (hb.follow hc).trans hca
    exact ⟨d, hst, hist.binds_later hb hadv (hb.visible?_eq_some hv).1 (hname ▸ hd)⟩
  · rintro rfl
    exact hist.exists_localRef hr

def outerAssignment : Locator :=
  (({} : Buffers).addModule "main" "var x\nfunc f() \x7b\n  x = 1\n\x7d\n").locator

theorem resolved_outerAssignment :
    ∃ table m b i y, compile outerAssignment {} = .ok table ∧ m ∈ table.modules ∧
      m.Reaches b [.use (nameAt 19 "x")] ∧ b.visible? "x" = some (i, y) ∧
      ∃ r ∈ m.scopes.localRefs b.current, ∃ d, r.status = .resolved d ∧
        m.scopes.Within y.scope d ∧ (y.scope = d ↔ (b.scopes.declared? d "x").isSome) := by
  have h : readAfter outerAssignment 3 (fun m b => (m.tree.events.drop 3, b.visible? "x")) =
      some ([.use (nameAt 19 "x")] ++ [.assign (nameAt 19 "x") (integerAt 23 "1"), .leave],
        some (0, ⟨"x", .variable none, 4, 0⟩)) := by decide +kernel
  obtain ⟨table, m, b, hc, hm, hb, he⟩ := readAfter_eq_some h
  obtain ⟨hevents, hv⟩ := Prod.mk.inj he
  have hr : m.Reaches b [.use (nameAt 19 "x")] :=
    ⟨_, _, (List.take_append_drop 3 _).symm.trans (congrArg _ hevents), hb⟩
  obtain ⟨hres, hex⟩ := resolved_of_visible hc hm hr rfl hv
  obtain ⟨r, hmem, hname⟩ := hex rfl
  exact ⟨table, m, b, _, _, hc, hm, hr, hv, r, hmem, hres r hmem hname⟩

/-- A variable assigned inside a function, which then declares one of the same name. -/
def lateShadow : Locator :=
  (({} : Buffers).addModule "main" "var x\nfunc f() \x7b\n  x = 1\n  var x\n\x7d\n").locator

/-- The two can differ: the outer variable is found, and the use resolved to the inner one. -/
theorem resolved_inside_visible :
    ∃ table m b i y, compile lateShadow {} = .ok table ∧ m ∈ table.modules ∧
      m.Reaches b [.assign (nameAt 19 "x") (integerAt 23 "1")] ∧ b.visible? "x" = some (i, y) ∧
      ∃ r ∈ m.scopes.localRefs b.current, r.name = "x" ∧
        ∃ d, r.status = .resolved d ∧ y.scope ≠ d := by
  have h : readAfter lateShadow 4 (fun m b =>
      (m.tree.events.drop 4, b.visible? "x", m.scopes.localRefs b.current)) =
      some ([.assign (nameAt 19 "x") (integerAt 23 "1")] ++
        [.declare (nameAt 31 "x") (.variable none), .leave],
        some (0, ⟨"x", .variable none, 4, 0⟩), [⟨"x", 19, .resolved 1⟩]) := by decide +kernel
  obtain ⟨table, m, b, hc, hm, hb, he⟩ := readAfter_eq_some h
  obtain ⟨hevents, he⟩ := Prod.mk.inj he
  obtain ⟨hv, hrefs⟩ := Prod.mk.inj he
  refine ⟨table, m, b, _, _, hc, hm,
    ⟨_, _, (List.take_append_drop 4 _).symm.trans (congrArg _ hevents), hb⟩, hv, _,
    hrefs ▸ List.mem_singleton_self _, rfl, 1, rfl, ?_⟩
  decide

/-- What is assigned to a name, if it is made of literals of one type, has the type that the
variable has in the end, if the scope that linking finds for the name had it at the time: and for
the value of a declaration it has. The analysis comes to all statements of the tree, those in
functions and blocks included. -/
theorem type_of_assigned (h : compile l config = .ok table) (hm : m ∈ table.modules) :
    (∀ (b : Analyzer) (n v : Node) (d : ScopeId) (t : PrimitiveType) (y : Symbol),
      ((m.Reaches b (.use n :: Event.ofValue n v) ∧ (b.scopes.declared? d n.textD).isSome) ∨
        ∃ type, m.Reaches b (.declare n (.variable type) :: Event.ofValue n v)) →
      v.MadeOf t → m.scopes.Binds n.textD b.current d →
      m.scopes.symbolOf? d n.textD = some y → y.isFunction = false →
      y.kind = .variable (some t)) ∧
    ∀ stmt : Node, stmt.IsAmong m.tree.items → ∃ b, m.Reaches b (Event.ofStatement stmt) := by
  obtain ⟨a, u, hist⟩ := exists_history h hm
  refine ⟨fun b n v d t y hr hv hd hy hvar => ?_, fun stmt hs => hist.exists_reaches hs⟩
  -- the variable gets its type when the value is given, and from then on it is kept
  suffices ∃ (b' c : Analyzer), b'.WellFormed ∧ b'.scopes.Binds n.textD b'.current d ∧
      b'.follow (Event.ofValue n v) = .ok c ∧ c.Advances a by
    obtain ⟨b', c, hb', hd', hc, hca⟩ := this
    obtain ⟨i, z, hi, hz, hkind⟩ := hb'.kind_of_value hd' hv hc
    obtain ⟨k, hk, hfinal⟩ := hca.symbolOf?_eq hi hz
    obtain rfl : { z with kind := k } = y :=
      Option.some.inj (hfinal.symm.trans ((hist.declarations.symbolOf? ..).symm.trans hy))
    rcases hkind with hfun | hkind
    · rw [hk.isFunction hfun] at hvar
      cases hvar
    · exact (hkind ▸ hk).of_typed
  have hd' := hd.of_sameDeclarations hist.declarations.symm
  rcases hr with ⟨hr, hearly⟩ | ⟨type, hr⟩
  · obtain ⟨hb, c, hc, -, hca⟩ := hist.reaches hr
    have hbind := ((hb.follow hc).trans hca).grows.binds hb.scopes hb.current_lt hd' hearly
    obtain ⟨b', hb', hc⟩ := Analyzer.follow_cons_eq_ok hc
    cases hb'
    exact ⟨_, c, (hb.expectLocal ..).wellFormed, hbind.of_sameDeclarations (.addLocalRef ..), hc,
      hca⟩
  · obtain ⟨hb, c, hc, -, hca⟩ := hist.reaches hr
    obtain ⟨b', hb', hc⟩ := Analyzer.follow_cons_eq_ok hc
    have hadv := hb.register hb'
    obtain ⟨i, scopes, hdef, rfl⟩ := Analyzer.register_eq_ok hb'
    have hi := (declared?_of_define (r := b.current) (n := n.textD) hdef hb.current_lt).trans
      (if_pos ⟨rfl, rfl⟩)
    have hfinal := ((hadv.wellFormed.follow hc).trans hca).grows.declared? hi
    obtain rfl := hd'.unique (.here hfinal)
    exact ⟨_, c, hadv.wellFormed, .here hi, hc, hca⟩

theorem type_of_assigned_outerAssignment :
    ∃ table m b y, compile outerAssignment {} = .ok table ∧ m ∈ table.modules ∧
      m.Reaches b (.use (nameAt 19 "x") :: Event.ofValue (nameAt 19 "x") (integerAt 23 "1")) ∧
      m.scopes.Binds "x" b.current 0 ∧ m.scopes.symbolOf? 0 "x" = some y ∧
      y.kind = .variable (some .int) ∧
      ∀ stmt : Node, stmt.IsAmong m.tree.items → ∃ b, m.Reaches b (Event.ofStatement stmt) := by
  have h : readAfter outerAssignment 3 (fun m b => (m.tree.events.drop 3,
      m.scopes.declaring? b.current "x", b.scopes.declared? 0 "x",
      (m.scopes.symbolOf? 0 "x").map Symbol.isFunction)) =
      some ((.use (nameAt 19 "x") :: Event.ofValue (nameAt 19 "x") (integerAt 23 "1")) ++ [.leave],
        some 0, some 0, some false) := by decide +kernel
  obtain ⟨table, m, b, hc, hm, hb, he⟩ := readAfter_eq_some h
  simp only [Prod.mk.injEq, Option.map_eq_some_iff] at he
  obtain ⟨hevents, hdecl, hb0, y, hy, hvar⟩ := he
  have hr : m.Reaches b
      (.use (nameAt 19 "x") :: Event.ofValue (nameAt 19 "x") (integerAt 23 "1")) :=
    ⟨_, _, (List.take_append_drop 3 _).symm.trans (congrArg _ hevents), hb⟩
  have hd : m.scopes.Binds "x" b.current 0 :=
    (wellFormed_of_compile hc hm).declaring?_eq_some_iff.1 hdecl
  have hearly : (b.scopes.declared? 0 "x").isSome := hb0 ▸ rfl
  obtain ⟨htype, hreaches⟩ := type_of_assigned hc hm
  have hkind := htype b _ _ 0 .int y (.inl ⟨hr, hearly⟩) (madeOf_integerAt ..) hd hy hvar
  exact ⟨table, m, b, y, hc, hm, hr, hd, hy, hkind, hreaches⟩

def lateDeclaration : Locator :=
  (({} : Buffers).addModule "main" "func f() \x7b\n  x = 1\n  var x\n\x7d\n").locator

/-- Without a variable at the time, none gets the type. -/
theorem type_unknown_lateDeclaration :
    ∃ table m b y, compile lateDeclaration {} = .ok table ∧ m ∈ table.modules ∧
      m.Reaches b (.use (nameAt 13 "x") :: Event.ofValue (nameAt 13 "x") (integerAt 17 "1")) ∧
      (integerAt 17 "1").MadeOf .int ∧ m.scopes.Binds "x" b.current 1 ∧
      m.scopes.symbolOf? 1 "x" = some y ∧ y.kind = .variable none := by
  have h : readAfter lateDeclaration 2 (fun m b => (m.tree.events.drop 2,
      m.scopes.declaring? b.current "x", (m.scopes.symbolOf? 1 "x").map Symbol.kind)) =
      some ((.use (nameAt 13 "x") :: Event.ofValue (nameAt 13 "x") (integerAt 17 "1")) ++
        [.declare (nameAt 25 "x") (.variable none), .leave],
        some 1, some (.variable none)) := by decide +kernel
  obtain ⟨table, m, b, hc, hm, hb, he⟩ := readAfter_eq_some h
  simp only [Prod.mk.injEq, Option.map_eq_some_iff] at he
  obtain ⟨hevents, hdecl, y, hy, hkind⟩ := he
  exact ⟨table, m, b, y, hc, hm,
    ⟨_, _, (List.take_append_drop 2 _).symm.trans (congrArg _ hevents), hb⟩,
    madeOf_integerAt .., (wellFormed_of_compile hc hm).declaring?_eq_some_iff.1 hdecl, hy, hkind⟩

end JayFrontEnd
