import JayFrontEnd.Proofs.Erasure
import JayFrontEnd.Proofs.Outcome
import JayFrontEnd.Proofs.Parsing.Respects

/-!
# Parsing without positions

Over tokens that differ in their positions alone, two parsers mirror each other if they end alike,
at the same cursor, and answer alike. Errors are left out: which one is the furthest hangs on
positions. A script mirrors another if it asks for the same and goes on alike after answers that
differ in positions alone; so it only passes positions on. If this is so of the rules of a grammar,
its parses agree up to positions.
-/

namespace JayFrontEnd

/-- Tokens that differ in their positions alone, and the same modules to ask for. -/
inductive Setting.Mirrors : Setting → Setting → Prop
  | tokens {ts us : List Token} (hasModule? : Option (String → Bool))
      (h : ts.map Token.erased = us.map Token.erased) :
      Setting.Mirrors ⟨.tokens ts, hasModule?⟩ ⟨.tokens us, hasModule?⟩

theorem Setting.Mirrors.token? {c d : Setting} (h : c.Mirrors d) (n : Nat) :
    (c.input.token? n).map Token.erased = (d.input.token? n).map Token.erased := by
  obtain ⟨_, h⟩ := h
  have hn := congrArg (·[n]?) h
  rwa [List.getElem?_map, List.getElem?_map] at hn

theorem Setting.Mirrors.isEnd {c d : Setting} (h : c.Mirrors d) (n : Nat) :
    c.input.isEnd n = d.input.isEnd n := by
  obtain ⟨_, h⟩ := h
  have hall := congrArg (fun ts => (ts.drop n).all Token.isLayout) h
  simp only [← List.map_drop, List.all_map] at hall
  exact hall

theorem Setting.Mirrors.length_eq {c d : Setting} (h : c.Mirrors d) :
    c.input.length = d.input.length := by
  obtain ⟨_, h⟩ := h
  have hlength := congrArg List.length h
  rwa [List.length_map, List.length_map] at hlength

/-- The states differ in positions alone, and in their errors. -/
structure ParseState.Mirrors (s t : ParseState) : Prop where
  cursor : s.cursor = t.cursor
  modules : s.imports.map Import.module = t.imports.map Import.module

namespace Parser

variable {α β γ δ : Type}

/-- Two runs end alike, and what they answer is the same for `view`. -/
inductive EndAlike (view : α → γ) : Except Failure α × ParseState →
    Except Failure α × ParseState → Prop
  | ok {a b : α} {s t : ParseState} : view a = view b → s.Mirrors t →
      EndAlike view (.ok a, s) (.ok b, t)
  | backtrack {e f : ParseError} {s t : ParseState} : s.Mirrors t →
      EndAlike view (.error (.backtrack e), s) (.error (.backtrack f), t)
  | fatal {e f : Fault} {s t : ParseState} : s.Mirrors t →
      EndAlike view (.error (.fatal e), s) (.error (.fatal f), t)

/-- In two settings, the parsers end alike. -/
def Mirrors (c d : Setting) (view : α → γ) (p q : Parser α) : Prop :=
  ∀ ⦃s t : ParseState⦄, s.Mirrors t → EndAlike view (p c s) (q d t)

namespace Mirrors

variable {c d : Setting} {view : α → γ} {view' : β → δ} {p q p' q' : Parser α}

theorem pure {a b : α} (h : view a = view b) : Mirrors c d view (Pure.pure a) (Pure.pure b) :=
  fun _ _ hs => .ok h hs

theorem bind {f g : α → Parser β} (hp : Mirrors c d view p q)
    (hf : ∀ a b, view a = view b → Mirrors c d view' (f a) (g b)) :
    Mirrors c d view' (p >>= f) (q >>= g) := by
  intro s t hs
  have hend := hp hs
  simp only [Bind.bind]
  generalize p c s = x, q d t = y at hend
  cases hend with
  | ok h hs => exact hf _ _ h hs
  | backtrack hs => exact .backtrack hs
  | fatal hs => exact .fatal hs

theorem moveTo {s t u v : ParseState} (hs : s.Mirrors t) (hu : u.Mirrors v) :
    (u.moveTo s.cursor).Mirrors (v.moveTo t.cursor) :=
  ⟨hs.cursor, hu.modules⟩

theorem restoring (hp : Mirrors c d view p q) :
    Mirrors c d view (Parser.restoring p) (Parser.restoring q) := by
  intro s t hs
  have hend := hp hs
  unfold Parser.restoring
  generalize p c s = x, q d t = y at hend
  cases hend with
  | ok h hu => exact .ok h hu
  | backtrack hu => exact .backtrack (moveTo hs hu)
  | fatal hu => exact .fatal hu

theorem orElse (hp : Mirrors c d view p q) (hp' : Mirrors c d view p' q') :
    Mirrors c d view (Parser.orElse p p') (Parser.orElse q q') := by
  intro s t hs
  have hend := hp hs
  unfold Parser.orElse
  generalize p c s = x, q d t = y at hend
  cases hend with
  | ok h hu => exact .ok h hu
  | fatal hu => exact .fatal hu
  | @backtrack e f u v hu =>
    have hend' := hp' (moveTo hs hu)
    dsimp only
    generalize p' c (u.moveTo s.cursor) = x, q' d (v.moveTo t.cursor) = y at hend'
    cases hend' with
    | ok h hw => exact .ok h hw
    | backtrack hw => exact .backtrack hw
    | fatal hw => exact .fatal hw

theorem abort (fault fault' : Fault) :
    Mirrors c d view (Parser.abort fault) (Parser.abort fault') :=
  fun _ _ hs => .fatal hs

theorem failAt (problem problem' : ParseProblem) (offset offset' : Nat) :
    Mirrors c d view (Parser.failAt problem offset) (Parser.failAt problem' offset') :=
  fun _ _ hs => .backtrack ⟨hs.cursor, hs.modules⟩

theorem fail (problem problem' : ParseProblem) :
    Mirrors c d view (Parser.fail problem) (Parser.fail problem') :=
  fun _ _ hs => failAt problem problem' _ _ hs

theorem optional (hp : Mirrors c d view p q) :
    Mirrors c d (Option.map view) (Parser.optional p) (Parser.optional q) := by
  intro s t hs
  have hend := hp hs
  unfold Parser.optional
  generalize p c s = x, q d t = y at hend
  cases hend with
  | ok h hu => exact .ok (congrArg some h) hu
  | backtrack hu => exact .ok rfl (moveTo hs hu)
  | fatal hu => exact .fatal hu

/-- What is the same of repeated answers: the answers, and whether an error ended them. -/
def viewAll (view : α → γ) (x : List α × Option ParseError) : List γ × Bool :=
  (x.1.map view, x.2.isSome)

theorem upTo (hp : Mirrors c d view p q) (n : Nat) :
    Mirrors c d (viewAll view) (Parser.upTo p n) (Parser.upTo q n) := by
  induction n with
  | zero => exact pure rfl
  | succ n ih =>
    intro s t hs
    have hend := hp hs
    unfold Parser.upTo
    generalize p c s = x, q d t = y at hend
    cases hend with
    | @ok a b u v h hu =>
      dsimp only
      rw [← hs.cursor, ← hu.cursor]
      split
      · exact .ok (congrArg (fun y => ([y], false)) h) hu
      · have hend' := ih hu
        generalize Parser.upTo p n c u = x, Parser.upTo q n d v = y at hend'
        cases hend' with
        | ok h' hw =>
          obtain ⟨has, he⟩ := Prod.mk.inj h'
          refine .ok ?_ hw
          show (view a :: _, _) = (view b :: _, _)
          rw [h, has, he]
        | backtrack hw => exact .backtrack hw
        | fatal hw => exact .fatal hw
    | backtrack hu => exact .ok rfl (moveTo hs hu)
    | fatal hu => exact .fatal hu

theorem repeated (hcd : c.Mirrors d) (hp : Mirrors c d view p q) :
    Mirrors c d (viewAll view) (Parser.repeated p) (Parser.repeated q) := by
  intro s t hs
  unfold Parser.repeated
  rw [hcd.length_eq, hs.cursor]
  exact hp.upTo _ hs

theorem any (hcd : c.Mirrors d) (hp : Mirrors c d view p q) :
    Mirrors c d (List.map view) (Parser.any p) (Parser.any q) :=
  (hp.repeated hcd).bind fun _ _ h => pure (Prod.mk.inj h).1

theorem many (hcd : c.Mirrors d) (hp : Mirrors c d view p q) :
    Mirrors c d (List.map view) (Parser.many p) (Parser.many q) := by
  intro s t hs
  have hend := hp.repeated hcd hs
  unfold Parser.many
  generalize Parser.repeated p c s = x, Parser.repeated q d t = y at hend
  cases hend with
  | @ok a b u v h hu =>
    obtain ⟨hmap, hsome⟩ := Prod.mk.inj h
    rcases a with ⟨_ | ⟨a, as⟩, e⟩ <;> rcases b with ⟨_ | ⟨b, bs⟩, f⟩
    · cases e <;> cases f
      · exact .ok rfl hu
      · exact absurd hsome Bool.false_ne_true
      · exact absurd hsome.symm Bool.false_ne_true
      · exact .backtrack hu
    · exact nomatch (show [] = view b :: bs.map view from hmap)
    · exact nomatch (show view a :: as.map view = [] from hmap)
    · exact .ok hmap hu
  | backtrack hu => exact .backtrack hu
  | fatal hu => exact .fatal hu

theorem labelled (label label' : String) (hp : Mirrors c d view p q) :
    Mirrors c d view (Parser.labelled label p) (Parser.labelled label' q) := by
  intro s t hs
  have hend := hp hs
  unfold Parser.labelled
  generalize p c s = x, q d t = y at hend
  cases hend with
  | ok h hu => exact .ok h hu
  | backtrack hu => exact failAt _ _ _ _ hu
  | fatal hu => exact .fatal hu

theorem wrapped {p q : Parser Parsed} (kind : String) (hp : Mirrors c d Parsed.erased p q) :
    Mirrors c d Node.erased (Parser.wrapped kind p) (Parser.wrapped kind q) := by
  intro s t hs
  have hend := hp hs
  unfold Parser.wrapped
  generalize p c s = x, q d t = y at hend
  cases hend with
  | @ok a b u v h hu =>
    rcases a with a | a <;> rcases b with b | b
    · refine .ok ?_ hu
      rw [Node.erased_mk, Node.erased_mk, Parsed.value.inj h]
    · exact nomatch h
    · exact nomatch h
    · exact .ok (Parsed.node.inj h) hu
  | backtrack hu => exact .backtrack hu
  | fatal hu => exact .fatal hu

theorem token (hcd : c.Mirrors d) (kind : String) :
    Mirrors c d Node.erased (Parser.token kind) (Parser.token kind) := by
  intro s t hs
  have ht := hcd.token? s.cursor
  obtain ⟨_, -⟩ := hcd
  rename_i ts us _
  simp only [Parser.token, ← hs.cursor]
  replace ht : (ts[s.cursor]?).map Token.erased = (us[s.cursor]?).map Token.erased := ht
  generalize ts[s.cursor]? = x, us[s.cursor]? = y at ht
  rcases x with _ | x <;> rcases y with _ | y
  · exact fail _ _ hs
  · cases ht
  · cases ht
  · have hxy : x.erased = y.erased := Option.some.inj ht
    have hkind : x.kind = y.kind := congrArg (·.kind) hxy
    dsimp only
    rw [hkind]
    split
    · refine .ok ?_ ⟨rfl, hs.modules⟩
      rw [Node.erased_ofToken, Node.erased_ofToken, hxy]
    · exact failAt _ _ _ _ hs

theorem literal (hcd : c.Mirrors d) (text : String) :
    Mirrors c d Node.erased (Parser.literal text) (Parser.literal text) := by
  obtain ⟨_, -⟩ := hcd
  exact fun _ _ hs => .fatal hs

theorem pattern (hcd : c.Mirrors d) (regex : Regex) :
    Mirrors c d Node.erased (Parser.pattern regex) (Parser.pattern regex) := by
  obtain ⟨_, -⟩ := hcd
  exact fun _ _ hs => .fatal hs

theorem importModule (hcd : c.Mirrors d) (module : String) (position position' : Nat) :
    Mirrors c d id (Parser.importModule module position)
      (Parser.importModule module position') := by
  obtain ⟨_, -⟩ := hcd
  intro s t hs
  have hany : s.imports.any (·.module == module) = t.imports.any (·.module == module) := by
    have h := congrArg (List.any · (· == module)) hs.modules
    rwa [List.any_map, List.any_map] at h
  unfold Parser.importModule ParseState.require
  dsimp only
  rw [hany]
  split
  · exact failAt _ _ _ _ hs
  · refine .ok rfl ?_
    split
    · exact hs
    · refine ⟨hs.cursor, ?_⟩
      rw [List.map_append, List.map_append, hs.modules]
      rfl

theorem offset : Mirrors c d (fun _ => ()) Parser.offset Parser.offset :=
  fun _ _ hs => .ok rfl hs

theorem peek (hcd : c.Mirrors d) : Mirrors c d (Option.map Token.erased) Parser.peek Parser.peek :=
  fun s _ hs => .ok (hs.cursor ▸ hcd.token? s.cursor) hs

end Mirrors

end Parser

/-- Trees that differ in positions alone, and the same modules asked for. -/
structure ParseOutput.Mirrors (o o' : ParseOutput) : Prop where
  tree : o.tree.erased = o'.tree.erased
  modules : o.imports.map Import.module = o'.imports.map Import.module

/-! ## Scripts -/

mutual

/-- The atoms ask for the same. -/
inductive Atom.Mirrors : Atom → Atom → Prop
  | token (kind : String) : Atom.Mirrors (.token kind) (.token kind)
  | literal (text : String) : Atom.Mirrors (.literal text) (.literal text)
  | pattern (regex : Regex) : Atom.Mirrors (.pattern regex) (.pattern regex)
  | rule (name : String) : Atom.Mirrors (.rule name) (.rule name)
  | inline (kind : String) {s t : Script} : s.Mirrors t →
      Atom.Mirrors (.inline kind s) (.inline kind t)
  | named (label : String) {a b : Atom} : a.Mirrors b →
      Atom.Mirrors (.named label a) (.named label b)

inductive Atom.AllMirror : List Atom → List Atom → Prop
  | nil : Atom.AllMirror [] []
  | cons {a b : Atom} {as bs : List Atom} : a.Mirrors b → Atom.AllMirror as bs →
      Atom.AllMirror (a :: as) (b :: bs)

/-- The scripts do the same after answers that differ in positions alone. -/
inductive Script.Mirrors : Script → Script → Prop
  | done {p q : Parsed} : p.erased = q.erased → Script.Mirrors (.done p) (.done q)
  | one {as bs : List Atom} {f g : Node → Script} : Atom.AllMirror as bs →
      (∀ {m n}, m.erased = n.erased → (f m).Mirrors (g n)) → Script.Mirrors (.one as f) (.one bs g)
  | opt {as bs : List Atom} {f g : Option Node → Script} : Atom.AllMirror as bs →
      (∀ {m n}, m.map Node.erased = n.map Node.erased → (f m).Mirrors (g n)) →
      Script.Mirrors (.opt as f) (.opt bs g)
  | any {as bs : List Atom} {f g : List Node → Script} : Atom.AllMirror as bs →
      (∀ {ms ns}, ms.map Node.erased = ns.map Node.erased → (f ms).Mirrors (g ns)) →
      Script.Mirrors (.any as f) (.any bs g)
  | many {as bs : List Atom} {f g : List Node → Script} : Atom.AllMirror as bs →
      (∀ {ms ns}, ms.map Node.erased = ns.map Node.erased → (f ms).Mirrors (g ns)) →
      Script.Mirrors (.many as f) (.many bs g)
  | importModule {module : String} {position position' : Nat} {s t : Script} : s.Mirrors t →
      Script.Mirrors (.importModule module position s) (.importModule module position' t)
  | fail (problem : ParseProblem) : Script.Mirrors (.fail problem) (.fail problem)
  | failAt (problem : ParseProblem) (offset offset' : Nat) :
      Script.Mirrors (.failAt problem offset) (.failAt problem offset')
  | abort (fault : Fault) : Script.Mirrors (.abort fault) (.abort fault)
  | offset {f g : Nat → Script} : (∀ {i j}, (f i).Mirrors (g j)) →
      Script.Mirrors (.offset f) (.offset g)
  | peek {f g : Option Token → Script} :
      (∀ {x y}, x.map Token.erased = y.map Token.erased → (f x).Mirrors (g y)) →
      Script.Mirrors (.peek f) (.peek g)

end

namespace Parser.Mirrors

variable {c d : Setting} {apply apply' : String → Parser Node}

mutual

theorem attempt (hcd : c.Mirrors d)
    (hrule : ∀ name, Mirrors c d Node.erased (apply name) (apply' name)) :
    ∀ {a b : Atom}, a.Mirrors b →
      Mirrors c d Node.erased (a.attempt apply) (b.attempt apply')
  | _, _, .token kind => token hcd kind
  | _, _, .literal text => literal hcd text
  | _, _, .pattern regex => pattern hcd regex
  | _, _, .rule name => hrule name
  | _, _, .inline kind h => (run hcd hrule h).wrapped kind
  | _, _, .named label h => (attempt hcd hrule h).labelled label label

theorem firstOf (hcd : c.Mirrors d)
    (hrule : ∀ name, Mirrors c d Node.erased (apply name) (apply' name)) :
    ∀ {as bs : List Atom}, Atom.AllMirror as bs → Mirrors c d Node.erased
      (Parser.firstOf (Atom.attempts apply as)) (Parser.firstOf (Atom.attempts apply' bs))
  | _, _, .nil => abort _ _
  | _, _, .cons h .nil => (attempt hcd hrule h).restoring
  | _, _, .cons h (.cons h' hs) => (attempt hcd hrule h).orElse (firstOf hcd hrule (.cons h' hs))

theorem run (hcd : c.Mirrors d)
    (hrule : ∀ name, Mirrors c d Node.erased (apply name) (apply' name)) :
    ∀ {s t : Script}, s.Mirrors t → Mirrors c d Parsed.erased (s.run apply) (t.run apply')
  | _, _, .done h => pure h
  | _, _, .one has hnext =>
    (firstOf hcd hrule has).bind fun _ _ h => run hcd hrule (hnext h)
  | _, _, .opt has hnext =>
    (firstOf hcd hrule has).optional.bind fun _ _ h => run hcd hrule (hnext h)
  | _, _, .any has hnext =>
    ((firstOf hcd hrule has).any hcd).bind fun _ _ h => run hcd hrule (hnext h)
  | _, _, .many has hnext =>
    ((firstOf hcd hrule has).many hcd).bind fun _ _ h => run hcd hrule (hnext h)
  | _, _, .importModule h => (importModule hcd _ _ _).bind fun _ _ _ => run hcd hrule h
  | _, _, .fail problem => fail problem problem
  | _, _, .failAt problem _ _ => failAt problem problem _ _
  | _, _, .abort fault => abort fault fault
  | _, _, .offset hnext => offset.bind fun _ _ _ => run hcd hrule hnext
  | _, _, .peek hnext => (peek hcd).bind fun _ _ h => run hcd hrule (hnext h)

end

end Parser.Mirrors

namespace Grammar

/-- The rules only pass positions on. -/
def Blind (g : Grammar) : Prop :=
  ∀ {name script}, g.rule? name = some script → script.Mirrors script

variable {g : Grammar} {c d : Setting}

theorem Blind.applyWithin (hg : g.Blind) (hcd : c.Mirrors d) (fuel : Nat) (name : String) :
    Parser.Mirrors c d Node.erased (g.applyWithin fuel name) (g.applyWithin fuel name) := by
  induction fuel generalizing name with
  | zero =>
    obtain ⟨fault, hzero⟩ := g.applyWithin_zero name
    rw [hzero]
    exact .abort _ _
  | succ fuel ih =>
    cases hs : g.rule? name with
    | none =>
      rw [applyWithin_none hs]
      exact .abort _ _
    | some script =>
      rw [applyWithin_some hs]
      exact (Parser.Mirrors.run hcd ih (hg hs)).wrapped name

theorem Blind.rule (hg : g.Blind) (hcd : c.Mirrors d) (name : String) :
    Parser.Mirrors c d Node.erased (g.rule name) (g.rule name) := by
  have happly : ∀ q, Parser.Mirrors c d Node.erased (g.apply q) (g.apply q) := by
    intro q s t hs
    unfold apply depth
    rw [hcd.length_eq]
    exact hg.applyWithin hcd _ q hs
  exact Parser.Mirrors.firstOf hcd happly (.cons (.rule name) .nil)

/-- A grammar that only passes positions on accepts tokens by their kinds and texts, and makes the
same tree of them, apart from positions. -/
theorem Blind.parse (hg : g.Blind) (hcd : c.Mirrors d) :
    SucceedAlike ParseOutput.Mirrors (g.parse c) (g.parse d) := by
  unfold Grammar.parse
  cases g.validate with
  | error fault => trivial
  | ok u =>
    have hend := hg.rule hcd g.root (s := {}) (t := {}) ⟨rfl, rfl⟩
    simp only [bind, Except.bind]
    generalize g.rule g.root c {} = x, g.rule g.root d {} = y at hend
    cases hend with
    | @ok a b s t h hs =>
      dsimp only
      rw [← hs.cursor, hcd.isEnd]
      split
      · exact ⟨h, hs.modules⟩
      · trivial
    | backtrack hs => trivial
    | fatal hs => trivial

end Grammar

end JayFrontEnd
