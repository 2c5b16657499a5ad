import JayFrontEnd.Proofs.Analysis.Erasure
import JayFrontEnd.Proofs.Grammar.Layout
import JayFrontEnd.Proofs.Program.Failure

/-!
# Layout

Texts whose tokens have the same kinds and texts differ in spaces, comments and line breaks alone.
What the front end makes of them is the same apart from positions: they parse or not, are analysed
or not and link within themselves or not, both alike.
-/

namespace JayFrontEnd

/-- The texts have tokens that differ in their positions alone. -/
def SameTokens (text text' : List Char) : Prop :=
  ∃ ts us, lex TokenRule.jay text = .ok ts ∧ lex TokenRule.jay text' = .ok us ∧
    ts.map Token.erased = us.map Token.erased

theorem analyze_of_erased_eq {m m' : ParsedModule} (hname : m.name = m'.name)
    (htree : m.tree.erased = m'.tree.erased) :
    SucceedAlike (fun x y => x.scopes.erased = y.scopes.erased) m.analyze m'.analyze := by
  have hscopes : ∀ m : ParsedModule, m.analyze.toOption.map (·.scopes.erased) =
      (((Analyzer.ofModule m.name {}).erased.follow m.tree.erased.events).toOption.map
        (·.scopes)) := by
    intro m
    have hfollow := (Analyzer.ofModule m.name m.source).follow_erased m.tree.events
    rw [← m.tree.events_erased] at hfollow
    rw [m.analyze_eq, m.scopes_eq]
    refine Eq.trans ?_ (congrArg (Option.map (·.scopes)) hfollow.symm)
    cases (Analyzer.ofModule m.name m.source).follow m.tree.events <;> rfl
  refine succeedAlike_of_toOption ?_
  rw [hscopes m, hscopes m', hname, htree]

theorem linkLocal_of_erased_eq {m m' : Module} (h : m.scopes.erased = m'.scopes.erased) :
    SucceedAlike (fun x y => x.scopes.erased = y.scopes.erased) m.linkLocal m'.linkLocal := by
  have hanswer : m.scopes.linkLocal.1.toOption = m'.scopes.linkLocal.1.toOption := by
    rw [← m.scopes.linkLocal_erased.1, h, m'.scopes.linkLocal_erased.1]
  have hscopes : m.scopes.linkLocal.2.erased = m'.scopes.linkLocal.2.erased := by
    rw [← m.scopes.linkLocal_erased.2, h, m'.scopes.linkLocal_erased.2]
  rw [m.linkLocal_eq, m'.linkLocal_eq]
  generalize m.scopes.linkLocal = x, m'.scopes.linkLocal = y at hanswer hscopes
  obtain ⟨_ | _, u⟩ := x <;> obtain ⟨_ | _, v⟩ := y
  · trivial
  · cases hanswer
  · cases hanswer
  · exact hscopes

/-- What the front end makes of a module hangs on the kinds and texts of its tokens. -/
theorem frontEnd_of_sameTokens {text text' : List Char} (h : SameTokens text text')
    (hasModule? : Option (String → Bool)) (module : String) (source source' : Source) :
    SucceedAlike (fun o o' => o.tree.erased = o'.tree.erased ∧
        o.imports.map Import.module = o'.imports.map Import.module ∧
        SucceedAlike (fun x y => x.scopes.erased = y.scopes.erased ∧
            SucceedAlike (fun u v => u.scopes.erased = v.scopes.erased) x.linkLocal y.linkLocal)
          (ParsedModule.analyze ⟨module, source, o.tree⟩)
          (ParsedModule.analyze ⟨module, source', o'.tree⟩))
      (lex TokenRule.jay text >>= Jay.parse hasModule?)
      (lex TokenRule.jay text' >>= Jay.parse hasModule?) := by
  obtain ⟨ts, us, hlex, hlex', hsame⟩ := h
  rw [hlex, hlex']
  refine SucceedAlike.mono (Jay.parse_of_erased_eq hsame hasModule?) fun ho =>
    ⟨ho.tree, ho.modules, ?_⟩
  refine SucceedAlike.mono (analyze_of_erased_eq rfl ho.tree) fun hxy => ⟨hxy, ?_⟩
  exact linkLocal_of_erased_eq hxy

/-- A program in two layouts. The second has a comment, blank lines and no line break at its end. -/
def plainLayout : List Char := "var x = 1\nfunc f(p int) \x7b\n  x = p + x\n\x7d\n".toList

def otherLayout : List Char :=
  "  var x=1 // one\r\n\n\nfunc f (p\tint)\x7b // body\nx=p+x\n\n\x7d".toList

theorem frontEnd_of_sameTokens_layouts : SameTokens plainLayout otherLayout ∧
    ∃ o o' m m' n n', (lex TokenRule.jay plainLayout >>= Jay.parse none) = .ok o ∧
      (lex TokenRule.jay otherLayout >>= Jay.parse none) = .ok o' ∧
      o.tree.erased = o'.tree.erased ∧ o.tree ≠ o'.tree ∧
      ParsedModule.analyze ⟨"main", {}, o.tree⟩ = .ok m ∧
      ParsedModule.analyze ⟨"main", {}, o'.tree⟩ = .ok m' ∧ m.scopes.erased = m'.scopes.erased ∧
      m.linkLocal = .ok n ∧ m'.linkLocal = .ok n' ∧ n.scopes.erased = n'.scopes.erased := by
  have htokens : (do
      let ts ← lex TokenRule.jay plainLayout
      let us ← lex TokenRule.jay otherLayout
      pure (decide (ts.map Token.erased = us.map Token.erased))) = Except.ok true := by
    decide +kernel
  have hruns : (do
      let o ← (lex TokenRule.jay plainLayout >>= Jay.parse none).toOption
      let o' ← (lex TokenRule.jay otherLayout >>= Jay.parse none).toOption
      let m ← (ParsedModule.analyze ⟨"main", {}, o.tree⟩).toOption
      let m' ← (ParsedModule.analyze ⟨"main", {}, o'.tree⟩).toOption
      let _ ← m.linkLocal.toOption
      let _ ← m'.linkLocal.toOption
      pure (decide (o.tree = o'.tree))) = some false := by decide +kernel
  -- from here on the texts are any
  generalize plainLayout = text, otherLayout = text' at *
  obtain ⟨ts, hlex, htokens⟩ := Except.bind_eq_ok.1 htokens
  obtain ⟨us, hlex', htokens⟩ := Except.bind_eq_ok.1 htokens
  have hsame : SameTokens text text' :=
    ⟨ts, us, hlex, hlex', of_decide_eq_true (Except.ok.inj htokens)⟩
  obtain ⟨o, ho, hruns⟩ := Option.bind_eq_some_iff.1 hruns
  obtain ⟨o', ho', hruns⟩ := Option.bind_eq_some_iff.1 hruns
  obtain ⟨m, hm, hruns⟩ := Option.bind_eq_some_iff.1 hruns
  obtain ⟨m', hm', hruns⟩ := Option.bind_eq_some_iff.1 hruns
  obtain ⟨n, hn, hruns⟩ := Option.bind_eq_some_iff.1 hruns
  obtain ⟨n', hn', hruns⟩ := Option.bind_eq_some_iff.1 hruns
  rw [Except.toOption_eq_some] at ho ho' hm hm' hn hn'
  have hfront := frontEnd_of_sameTokens hsame none "main" {} {}
  rw [ho, ho'] at hfront
  obtain ⟨htree, -, hmodule⟩ := hfront
  rw [hm, hm'] at hmodule
  obtain ⟨hscopes, hlinked⟩ := hmodule
  rw [hn, hn'] at hlinked
  exact ⟨hsame, o, o', m, m', n, n', ho, ho', htree, of_decide_eq_false (Option.some.inj hruns),
    hm, hm', hscopes, hn, hn', hlinked⟩

end JayFrontEnd
