import JayFrontEnd.Parsing.Apply

/-!
# What holds of all parsers of a grammar

A relation between parsers that holds of the requests of scripts, and passes through each way in
which parsers are put together, holds of what a grammar makes of its rules. `Requests` says what
scripts may ask for; whatever else they could ask for the relation need not hold of.
-/

namespace JayFrontEnd

/-- What scripts may ask for, besides tokens and text: rules of some names, modules, and failures at
an offset of their own. -/
structure Requests where
  rule : String → Prop := fun _ => True
  module : Prop := True
  failAt : Prop := True

mutual

def Atom.Within (A : Requests) : Atom → Prop
  | .token _ => True
  | .literal _ => True
  | .pattern _ => True
  | .rule name => A.rule name
  | .inline _ script => script.Within A
  | .named _ atom => atom.Within A

def Atom.AllWithin (A : Requests) : List Atom → Prop
  | [] => True
  | a :: as => a.Within A ∧ Atom.AllWithin A as

/-- The script asks for nothing else, whatever the answers are. -/
def Script.Within (A : Requests) : Script → Prop
  | .done _ => True
  | .one atoms next => Atom.AllWithin A atoms ∧ ∀ n, (next n).Within A
  | .opt atoms next => Atom.AllWithin A atoms ∧ ∀ n, (next n).Within A
  | .any atoms next => Atom.AllWithin A atoms ∧ ∀ ns, (next ns).Within A
  | .many atoms next => Atom.AllWithin A atoms ∧ ∀ ns, (next ns).Within A
  | .importModule _ _ next => A.module ∧ next.Within A
  | .fail _ => True
  | .failAt _ _ => A.failAt
  | .abort _ => True
  | .offset next => ∀ i, (next i).Within A
  | .peek next => ∀ t, (next t).Within A

end

/-! Where everything may be asked for, all scripts are within it. -/

mutual

theorem Atom.within_all : ∀ a : Atom, a.Within {}
  | .token _ | .literal _ | .pattern _ | .rule _ => trivial
  | .inline _ script => Script.within_all script
  | .named _ atom => Atom.within_all atom

theorem Atom.allWithin_all : ∀ as : List Atom, Atom.AllWithin {} as
  | [] => trivial
  | a :: as => ⟨a.within_all, Atom.allWithin_all as⟩

theorem Script.within_all : ∀ script : Script, script.Within {}
  | .done _ | .fail _ | .failAt _ _ | .abort _ => trivial
  | .one atoms next => ⟨Atom.allWithin_all atoms, fun n => (next n).within_all⟩
  | .opt atoms next => ⟨Atom.allWithin_all atoms, fun n => (next n).within_all⟩
  | .any atoms next => ⟨Atom.allWithin_all atoms, fun ns => (next ns).within_all⟩
  | .many atoms next => ⟨Atom.allWithin_all atoms, fun ns => (next ns).within_all⟩
  | .importModule _ _ next => ⟨trivial, next.within_all⟩
  | .offset next => fun i => (next i).within_all
  | .peek next => fun t => (next t).within_all

end

namespace Grammar

variable {g : Grammar} {name : String}

theorem applyWithin_none (h : g.rule? name = none) (fuel : Nat) :
    g.applyWithin fuel name = Parser.abort (.grammar (.unknownRule name)) := by
  cases fuel <;> rw [applyWithin, h]

theorem applyWithin_some {script : Script} (h : g.rule? name = some script) (fuel : Nat) :
    g.applyWithin (fuel + 1) name =
      Parser.wrapped name (script.run (g.applyWithin fuel)) := by
  rw [applyWithin, h]

theorem applyWithin_zero (g : Grammar) (name : String) :
    ∃ fault, g.applyWithin 0 name = Parser.abort fault := by
  cases h : g.rule? name with
  | none => exact ⟨_, applyWithin_none h 0⟩
  | some script => exact ⟨.grammar (.endlessRule name), by rw [applyWithin, h]⟩

end Grammar

/-- The relation holds of the requests, and of what is put together from parsers it holds of. A rule
that is out of fuel gives up, so it must also hold between any parser and one that gives up. -/
structure Respects (A : Requests) (R : ∀ {α : Type}, Parser α → Parser α → Prop) : Prop where
  pure : ∀ {α : Type} (a : α), R (Pure.pure a) (Pure.pure a)
  bind : ∀ {α β : Type} {p q : Parser α} {f g : α → Parser β}, R p q → (∀ a, R (f a) (g a)) →
    R (p >>= f) (q >>= g)
  token : ∀ kind, R (Parser.token kind) (Parser.token kind)
  literal : ∀ text, R (Parser.literal text) (Parser.literal text)
  pattern : ∀ regex, R (Parser.pattern regex) (Parser.pattern regex)
  restoring : ∀ {α : Type} {p q : Parser α}, R p q → R (Parser.restoring p) (Parser.restoring q)
  orElse : ∀ {α : Type} {p q p' q' : Parser α}, R p q → R p' q' →
    R (Parser.orElse p p') (Parser.orElse q q')
  optional : ∀ {α : Type} {p q : Parser α}, R p q → R (Parser.optional p) (Parser.optional q)
  repeated : ∀ {α : Type} {p q : Parser α}, R p q → R (Parser.repeated p) (Parser.repeated q)
  many : ∀ {α : Type} {p q : Parser α}, R p q → R (Parser.many p) (Parser.many q)
  labelled : ∀ {α : Type} {p q : Parser α} (label : String), R p q →
    R (Parser.labelled label p) (Parser.labelled label q)
  wrapped : ∀ {p q : Parser Parsed} (kind : String), R p q →
    R (Parser.wrapped kind p) (Parser.wrapped kind q)
  importModule : A.module → ∀ module position,
    R (Parser.importModule module position) (Parser.importModule module position)
  fail : ∀ {α : Type} (problem : ParseProblem),
    R (Parser.fail (α := α) problem) (Parser.fail problem)
  failAt : A.failAt → ∀ {α : Type} (problem : ParseProblem) (offset : Nat),
    R (Parser.failAt (α := α) problem offset) (Parser.failAt problem offset)
  offset : R Parser.offset Parser.offset
  peek : R Parser.peek Parser.peek
  abort_left : ∀ {α : Type} (fault : Fault) (q : Parser α), R (Parser.abort fault) q
  abort_right : ∀ {α : Type} {p : Parser α} (fault : Fault), R p p → R p (Parser.abort fault)

namespace Respects

variable {A : Requests} {R : ∀ {α : Type}, Parser α → Parser α → Prop} (hR : Respects A R)
  {apply apply' : String → Parser Node}

include hR

mutual

theorem attempt (hrule : ∀ name, A.rule name → R (apply name) (apply' name)) :
    ∀ a : Atom, a.Within A → R (a.attempt apply) (a.attempt apply')
  | .token kind, _ => hR.token kind
  | .literal text, _ => hR.literal text
  | .pattern regex, _ => hR.pattern regex
  | .rule name, h => hrule name h
  | .inline kind script, h => hR.wrapped kind (run hrule script h)
  | .named label atom, h => hR.labelled label (attempt hrule atom h)

theorem firstOf (hrule : ∀ name, A.rule name → R (apply name) (apply' name)) :
    ∀ as : List Atom, Atom.AllWithin A as →
    R (Parser.firstOf (Atom.attempts apply as)) (Parser.firstOf (Atom.attempts apply' as))
  | [], _ => hR.abort_left _ _
  | [a], h => hR.restoring (attempt hrule a h.1)
  | a :: b :: as, h => hR.orElse (attempt hrule a h.1) (firstOf hrule (b :: as) h.2)

theorem run (hrule : ∀ name, A.rule name → R (apply name) (apply' name)) :
    ∀ script : Script, script.Within A → R (script.run apply) (script.run apply')
  | .done result, _ => hR.pure result
  | .one atoms next, h => hR.bind (firstOf hrule atoms h.1) fun a => run hrule (next a) (h.2 a)
  | .opt atoms next, h =>
    hR.bind (hR.optional (firstOf hrule atoms h.1)) fun a => run hrule (next a) (h.2 a)
  | .any atoms next, h =>
    hR.bind (hR.bind (hR.repeated (firstOf hrule atoms h.1)) fun as => hR.pure as.1) fun as =>
      run hrule (next as) (h.2 as)
  | .many atoms next, h =>
    hR.bind (hR.many (firstOf hrule atoms h.1)) fun as => run hrule (next as) (h.2 as)
  | .importModule module position next, h =>
    hR.bind (hR.importModule h.1 module position) fun _ => run hrule next h.2
  | .fail problem, _ => hR.fail problem
  | .failAt problem offset, h => hR.failAt h problem offset
  | .abort fault, _ => hR.abort_left fault _
  | .offset next, h => hR.bind hR.offset fun i => run hrule (next i) (h i)
  | .peek next, h => hR.bind hR.peek fun t => run hrule (next t) (h t)

end

/-- It holds of a rule that may be asked for, with any two amounts of fuel. -/
theorem applyWithin {g : Grammar} (hg : ∀ name script, A.rule name → g.rule? name = some script →
      script.Within A) (fuel fuel' : Nat) {name : String} (hname : A.rule name) :
    R (g.applyWithin fuel name) (g.applyWithin fuel' name) := by
  induction fuel generalizing fuel' name with
  | zero =>
    obtain ⟨fault, hzero⟩ := g.applyWithin_zero name
    rw [hzero]
    exact hR.abort_left fault _
  | succ fuel ih =>
    cases hs : g.rule? name with
    | none =>
      rw [Grammar.applyWithin_none hs]
      exact hR.abort_left _ _
    | some script =>
      have hstep : ∀ m, R (g.applyWithin (fuel + 1) name) (g.applyWithin (m + 1) name) := by
        intro m
        rw [Grammar.applyWithin_some hs, Grammar.applyWithin_some hs]
        exact hR.wrapped name (hR.run (fun q hq => ih m hq) script (hg name script hname hs))
      cases fuel' with
      | zero =>
        obtain ⟨fault, hzero⟩ := g.applyWithin_zero name
        rw [hzero]
        exact hR.abort_right fault (hstep fuel)
      | succ m => exact hstep m

end Respects

end JayFrontEnd
