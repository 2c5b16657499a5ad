import JayFrontEnd.Pattern.Parser
import JayFrontEnd.Proofs.Parsing.Forward
import JayFrontEnd.Proofs.Pattern.Ways

/-!
# Loops

A loop whose turns use input before they go on ends by itself: it makes one turn at most for each
piece of input left, and one more. So however many turns it is given beyond that, it does the same,
and it satisfies the equation of a loop without a bound. Comments in comments are an instance: the
local of their loop counts how many are open.
-/

namespace JayFrontEnd

/-! ## Parsers that use text -/

/-- A match that takes something stops behind the start of the text. -/
theorem Pattern.offset_pos_of_search? {p : Pattern} {text : List Char} {m : Match}
    (hp : p.consumes = true) (h : p.search? text = some m) : 0 < m.stop.offset := by
  obtain ⟨-, gs, hs, hmatches⟩ := finds_of_search? h
  obtain ⟨before, taken, hbefore, htaken⟩ := p.liesIn_search? h
  cases taken with
  | nil =>
    have hlt := hmatches.length_lt hp
    rw [htaken.rest, List.nil_append] at hlt
    exact absurd hlt (Nat.lt_irrefl _)
  | cons c cs =>
    rw [htaken.offset, Text.byteLength_cons]
    have := c.utf8Size_pos
    omega

theorem Parser.Uses.pattern {source : String} {p : Pattern} {c : Setting}
    (hp : p.consumes = true) : (Parser.pattern (.ofPattern source p)).Uses c := by
  intro s n t h
  refine (Parser.Forward.pattern _ h).left_lt fun hcursor => ?_
  unfold Parser.pattern at h
  split at h
  · cases h
  · split at h <;> cases h
    next m hm =>
      have hpos := Pattern.offset_pos_of_search? hp (Option.filter_eq_some_iff.1 hm).1
      simp only [ParseState.moveTo] at hcursor
      omega

/-! ## Loops that use input -/

namespace Script

variable {σ : Type} {turn : σ → (σ → Script) → Script} {last last' : Script}
  {apply : String → Parser Node} {c : Setting}

/-- What goes on alike from wherever less input is left, goes on alike after a turn. -/
def TurnUses (apply : String → Parser Node) (c : Setting) (turn : σ → (σ → Script) → Script) :
    Prop :=
  ∀ ⦃next next' : σ → Script⦄ ⦃x : σ⦄ ⦃s : ParseState⦄,
    (∀ y t, c.left t < c.left s → (next y).run apply c t = (next' y).run apply c t) →
      (turn x next).run apply c s = (turn x next').run apply c s

/-- With enough turns for the input left, neither their number nor what comes last matters. -/
theorem run_loop_eq (h : TurnUses apply c turn) {n n' : Nat} {x : σ} {s : ParseState}
    (hn : c.left s < n) (hn' : c.left s < n') :
    (loop turn last n x).run apply c s = (loop turn last' n' x).run apply c s := by
  induction n generalizing n' x s with
  | zero => cases hn
  | succ n ih =>
    cases n' with
    | zero => cases hn'
    | succ n' => exact h fun y t ht => ih (by omega) (by omega)

/-- The loop is a turn and then the loop again. -/
theorem run_loop (h : TurnUses apply c turn) {n : Nat} {x : σ} {s : ParseState}
    (hn : c.left s < n) :
    (loop turn last n x).run apply c s = (turn x (loop turn last n)).run apply c s := by
  cases n with
  | zero => cases hn
  | succ n => exact h fun y t ht => run_loop_eq h (by omega) (by omega)

theorem run_one_congr {atoms : List Atom} {next next' : Node → Script} {s : ParseState}
    (h : ∀ n t, Parser.firstOf (Atom.attempts apply atoms) c s = (.ok n, t) →
      (next n).run apply c t = (next' n).run apply c t) :
    (one atoms next).run apply c s = (one atoms next').run apply c s := by
  simp only [run, Bind.bind]
  rcases hrun : Parser.firstOf (Atom.attempts apply atoms) c s with ⟨e | n, t⟩
  · rfl
  · exact h n t hrun

/-- A turn that asks for input, and then goes on or ends without going back. -/
theorem turnUses_one {atoms : List Atom} {body : σ → Node → (σ → Script) → Script}
    (hatoms : (Parser.firstOf (Atom.attempts apply atoms)).Uses c)
    (hbody : ∀ {next next' : σ → Script} {t : ParseState},
      (∀ y, (next y).run apply c t = (next' y).run apply c t) →
        ∀ x n, (body x n next).run apply c t = (body x n next').run apply c t) :
    TurnUses apply c fun x next => one atoms fun n => body x n next :=
  fun _ _ x _ h => run_one_congr fun n t hrun => hbody (fun y => h y t (hatoms hrun)) x n

/-! ## Comments in comments -/

/-- The text up to a sign that opens or closes a comment, whichever comes first. -/
def commentDelimiter : Pattern :=
  .seq (.repeated 0 none false (.one ⟨[(0, 1114111)]⟩))
    (.group 1 (.alt (.text ['/', '*']) (.text ['*', '/'])))

example : Pattern.parse? "(?s).*?(/\\*|\\*/)" = some commentDelimiter := by decide +kernel

def levelAfter (level : Nat) (found : Node) : Nat :=
  if found.text? = some "/*" then level + 1 else level - 1

/-- A turn of a comment, where so many comments are open. -/
def commentTurn (level : Nat) (next : Nat → Script) : Script :=
  one [.named "*/" (.pattern (.ofPattern "(?s).*?(/\\*|\\*/)" commentDelimiter))] fun found =>
    if 0 < levelAfter level found then next (levelAfter level found) else value (.list [])

def blockComment (turns : Nat) : Script :=
  one [.literal "/*"] fun _ =>
    loop commentTurn (abort (.grammar (.endlessRule "comment"))) turns 1

theorem turnUses_commentTurn : TurnUses apply c commentTurn := by
  refine turnUses_one (((Parser.Uses.pattern rfl).labelled "*/").restoring) fun h level n => ?_
  split
  · exact h _
  · rfl

theorem run_blockComment_eq {turns turns' : Nat} (h : c.input.length < turns)
    (h' : c.input.length < turns') (s : ParseState) :
    (blockComment turns).run apply c s = (blockComment turns').run apply c s :=
  run_one_congr fun _ t _ =>
    have hleft : c.left t ≤ c.input.length := Nat.sub_le ..
    run_loop_eq turnUses_commentTurn (by omega) (by omega)

/-- A comment asks for no rule. -/
theorem run_blockComment_apply (turns : Nat) (apply' : String → Parser Node) :
    (blockComment turns).run apply = (blockComment turns).run apply' := by
  have hloop (level : Nat) :
      (loop commentTurn (abort (.grammar (.endlessRule "comment"))) turns level).run apply =
        (loop commentTurn (abort (.grammar (.endlessRule "comment"))) turns level).run apply' := by
    induction turns generalizing level with
    | zero => rfl
    | succ turns ih =>
      refine congrArg (Parser.firstOf (Atom.attempts apply _) >>= ·) (funext fun n => ?_)
      beta_reduce
      split
      · exact ih _
      · rfl
  exact congrArg (Parser.firstOf (Atom.attempts apply _) >>= ·) (funext fun _ => hloop 1)

end Script

def commentGrammar (turns : Nat) : Grammar :=
  .ofRules "comment" [("comment", .blockComment turns)]

/-- With a turn for each byte and one more, comments are parsed as by a loop without a bound. -/
theorem parse_commentGrammar {c : Setting} {turns turns' : Nat} (h : c.input.length < turns)
    (h' : c.input.length < turns') :
    (commentGrammar turns).parse c = (commentGrammar turns').parse c := by
  have happly (s : ParseState) : (commentGrammar turns).apply "comment" c s =
      (commentGrammar turns').apply "comment" c s := by
    show Parser.wrapped "comment" ((Script.blockComment turns).run _) c s =
      Parser.wrapped "comment" ((Script.blockComment turns').run _) c s
    unfold Parser.wrapped
    rw [Script.run_blockComment_apply turns, Script.run_blockComment_eq h h']
  have hrule : (commentGrammar turns).rule "comment" c {} =
      (commentGrammar turns').rule "comment" c {} := by
    have hrestoring (g : Grammar) :
        g.rule "comment" c {} = Parser.restoring (g.apply "comment") c {} := rfl
    rw [hrestoring, hrestoring, Parser.restoring, Parser.restoring, happly]
  have hroot (turns : Nat) : (commentGrammar turns).root = "comment" := rfl
  have hvalid (turns : Nat) : (commentGrammar turns).validate = .ok () := rfl
  simp only [Grammar.parse, hroot, hvalid, hrule]

example : ((commentGrammar 18).parse ⟨.text "/* a /* b */ c */".toList, none⟩).isOk = true := by
  decide +kernel

example : ((commentGrammar 18).parse ⟨.text "/* a /* b */".toList, none⟩).map (fun _ => ()) =
    .error (.parse (.expected "*/") 12) := by
  decide +kernel

example : ((commentGrammar 18).parse ⟨.text "/* a */ b */".toList, none⟩).map (fun _ => ()) =
    .error (.parse .unparsedRest 7) := by
  decide +kernel

end JayFrontEnd
