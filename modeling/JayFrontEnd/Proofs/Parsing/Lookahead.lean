import JayFrontEnd.Proofs.Parsing.Reads
import JayFrontEnd.Proofs.Parsing.Respects
import JayFrontEnd.Proofs.Parsing.Spans

/-!
# How far a parser looks

A parser of tokens that has not looked at token `k` does not depend on it, and one that has looked
shows it: it stands behind the token, or its furthest error is not before the token. So over two
lists that agree up to token `k`, a parser does the same, unless over the first list it has looked
at that token. Fatal failures are left out on both sides: they depend on the fuel.
-/

namespace JayFrontEnd

/-- The lists agree before token `k`, and the first one has that token, its tokens in the order of
their positions. -/
structure Agrees (k : Nat) (ts us : List Token) : Prop where
  lt_length : k < ts.length
  getElem? : ∀ i < k, us[i]? = ts[i]?
  le_length : k ≤ us.length
  sorted : ts.Pairwise (·.position ≤ ·.position)

theorem Agrees.offset {k : Nat} {ts us : List Token} (h : Agrees k ts us) {i : Nat} (hi : i < k) :
    (Input.tokens us).offset i = (Input.tokens ts).offset i := by
  have hget := List.getElem?_eq_getElem (Nat.lt_trans hi h.lt_length)
  simp [Input.offset, h.getElem? i hi, hget]

namespace ParseState

variable {ts : List Token} {k : Nat} {s : ParseState} {e : ParseError}

/-- The furthest error is not before token `k`. -/
def Past (ts : List Token) (k : Nat) (s : ParseState) : Prop :=
  ∃ e, s.furthest = some e ∧ (Input.tokens ts).offset k ≤ e.offset

theorem Past.note (h : s.Past ts k) (e : ParseError) : (s.note e).Past ts k := by
  obtain ⟨f, hf, hle⟩ := h
  refine ⟨f.max e, by simp only [ParseState.note, hf], ?_⟩
  unfold ParseError.max
  split
  · omega
  · exact hle

theorem past_note (h : (Input.tokens ts).offset k ≤ e.offset) : (s.note e).Past ts k := by
  cases hf : s.furthest with
  | none => exact ⟨e, by simp only [note, hf], h⟩
  | some f =>
    refine ⟨f.max e, by simp only [note, hf], ?_⟩
    unfold ParseError.max
    split <;> omega

/-- The state shows that token `k` has been looked at. -/
def Beyond (ts : List Token) (k : Nat) (s : ParseState) : Prop := s.Past ts k ∨ k ≤ s.cursor

end ParseState

open ParseState

variable {ts us : List Token} {k : Nat} {α β : Type}

/-- The outcome shows that token `k` has been looked at. -/
def Looked (ts : List Token) (k : Nat) : Except Failure α × ParseState → Prop
  | (.ok _, t) => t.Beyond ts k
  | (.error (.backtrack _), t) => t.Past ts k
  | (.error (.fatal _), _) => True

/-- The outcomes are the same and do not go beyond token `k`, unless the first shows that the token
has been looked at or the second is fatal. -/
def Alike (ts : List Token) (k : Nat) (s : ParseState) (x y : Except Failure α × ParseState) :
    Prop :=
  Looked ts k x ∨ (∃ fault t, y = (.error (.fatal fault), t)) ∨
    x = y ∧ ∀ a t, x = (.ok a, t) → s.cursor ≤ t.cursor ∧ t.cursor < k

theorem Alike.failed {s t : ParseState} {f : Failure} :
    Alike ts k s ((.error f, t) : Except Failure α × ParseState) (.error f, t) :=
  .inr (.inr ⟨rfl, nofun⟩)

/-- Over two lists of tokens, when any module may be asked for, the parsers do the same up to token
`k`. Once a parser has looked at the token, this shows for good. -/
structure Local (k : Nat) (ts us : List Token) (p q : Parser α) : Prop where
  beyond : ∀ {s}, s.Beyond ts k → Looked ts k (p ⟨.tokens ts, none⟩ s)
  before : ∀ {s}, s.cursor < k → Alike ts k s (p ⟨.tokens ts, none⟩ s) (q ⟨.tokens us, none⟩ s)

namespace Local

variable {p q : Parser α}

/-- A parser whose outcome hangs on what comes before token `k`. -/
theorem of_eq (hb : ∀ {s}, s.Beyond ts k → Looked ts k (p ⟨.tokens ts, none⟩ s))
    (h : ∀ {s}, s.cursor < k → p ⟨.tokens ts, none⟩ s = q ⟨.tokens us, none⟩ s ∧
      ∀ a t, p ⟨.tokens ts, none⟩ s = (.ok a, t) → t.cursor = s.cursor) : Local k ts us p q :=
  ⟨hb, fun hs => .inr (.inr ⟨(h hs).1, fun a t ht => by have := (h hs).2 a t ht; omega⟩)⟩

theorem pure (a : α) : Local k ts us (Pure.pure a) (Pure.pure a) :=
  of_eq id fun _ => ⟨rfl, fun _ _ h => by cases h; rfl⟩

theorem bind {f g : α → Parser β} (hp : Local k ts us p q)
    (hf : ∀ a, Local k ts us (f a) (g a)) : Local k ts us (p >>= f) (q >>= g) := by
  -- once the first part has looked at the token, so has the whole
  have hlooked : ∀ {s}, Looked ts k (p ⟨.tokens ts, none⟩ s) →
      Looked ts k ((p >>= f) ⟨.tokens ts, none⟩ s) := by
    intro s h
    rcases hrun : p ⟨.tokens ts, none⟩ s with ⟨(e | fault) | a, t⟩
    all_goals
      rw [hrun] at h
      simp only [Bind.bind, hrun]
    · exact h
    · exact h
    · exact (hf a).beyond h
  refine ⟨fun hs => hlooked (hp.beyond hs), fun {s} hs => ?_⟩
  rcases hp.before hs with h | ⟨fault, t, h⟩ | ⟨h, hstays⟩
  · exact .inl (hlooked h)
  · exact .inr (.inl ⟨fault, t, by simp only [Bind.bind, h]⟩)
  · rcases hrun : q ⟨.tokens us, none⟩ s with ⟨e | a, t⟩
    all_goals
      rw [hrun] at h
      simp only [Bind.bind, hrun, h]
    · exact .failed
    · have hcur := hstays a t h
      refine ((hf a).before hcur.2).imp_right (Or.imp_right fun ⟨h', hstays'⟩ => ⟨h', ?_⟩)
      intro b u hb
      have := hstays' b u hb
      omega

/-! ## Choice -/

theorem restoring (hp : Local k ts us p q) :
    Local k ts us (Parser.restoring p) (Parser.restoring q) := by
  have hlooked : ∀ {s}, Looked ts k (p ⟨.tokens ts, none⟩ s) →
      Looked ts k (Parser.restoring p ⟨.tokens ts, none⟩ s) := by
    intro s h
    rcases hrun : p ⟨.tokens ts, none⟩ s with ⟨(e | fault) | a, t⟩
    all_goals
      rw [hrun] at h
      simp only [Parser.restoring, hrun]
      exact h
  refine ⟨fun hs => hlooked (hp.beyond hs), fun {s} hs => ?_⟩
  rcases hp.before hs with h | ⟨fault, t, h⟩ | ⟨h, hstays⟩
  · exact .inl (hlooked h)
  · exact .inr (.inl ⟨fault, t, by simp only [Parser.restoring, h]⟩)
  · rcases hrun : q ⟨.tokens us, none⟩ s with ⟨(e | fault) | a, t⟩
    all_goals
      rw [hrun] at h
      simp only [Parser.restoring, hrun, h]
    · exact .failed
    · exact .failed
    · refine .inr (.inr ⟨rfl, fun b u hb => ?_⟩)
      cases hb
      exact hstays a t h

theorem orElse {p' q' : Parser α} (hp : Local k ts us p q) (hq : Local k ts us p' q') :
    Local k ts us (Parser.orElse p p') (Parser.orElse q q') := by
  -- the second parser starts where the first did, and only its error may be replaced
  have hsecond : ∀ {s t : ParseState} {e : ParseError},
      p ⟨.tokens ts, none⟩ s = (.error (.backtrack e), t) →
      Looked ts k (p' ⟨.tokens ts, none⟩ (t.moveTo s.cursor)) →
      Looked ts k (Parser.orElse p p' ⟨.tokens ts, none⟩ s) := by
    intro s t e hrun h
    rcases hrun' : p' ⟨.tokens ts, none⟩ (t.moveTo s.cursor) with ⟨(e' | fault) | a, u⟩
    all_goals
      rw [hrun'] at h
      simp only [Parser.orElse, hrun, hrun']
      exact h
  have hlooked : ∀ {s}, Looked ts k (p ⟨.tokens ts, none⟩ s) →
      Looked ts k (Parser.orElse p p' ⟨.tokens ts, none⟩ s) := by
    intro s h
    rcases hrun : p ⟨.tokens ts, none⟩ s with ⟨(e | fault) | a, t⟩
    · rw [hrun] at h
      exact hsecond hrun (hq.beyond (.inl h))
    · simp only [Parser.orElse, hrun]
      trivial
    · rw [hrun] at h
      simp only [Parser.orElse, hrun]
      exact h
  refine ⟨fun hs => hlooked (hp.beyond hs), fun {s} hs => ?_⟩
  rcases hp.before hs with h | ⟨fault, t, h⟩ | ⟨h, hstays⟩
  · exact .inl (hlooked h)
  · exact .inr (.inl ⟨fault, t, by simp only [Parser.orElse, h]⟩)
  · rcases hrun : q ⟨.tokens us, none⟩ s with ⟨(e | fault) | a, t⟩
    all_goals rw [hrun] at h
    · rcases hq.before (s := t.moveTo s.cursor) hs with h' | ⟨fault, u, h'⟩ | ⟨h', hstays'⟩
      · exact .inl (hsecond h h')
      · exact .inr (.inl ⟨fault, u, by simp only [Parser.orElse, hrun, h']⟩)
      · rcases hrun' : q' ⟨.tokens us, none⟩ (t.moveTo s.cursor) with ⟨(e' | fault) | a, u⟩
        all_goals
          rw [hrun'] at h'
          simp only [Parser.orElse, h, hrun, h', hrun']
        · exact .failed
        · exact .failed
        · refine .inr (.inr ⟨rfl, fun b v hb => ?_⟩)
          cases hb
          exact hstays' a u h'
    · exact .inr (.inl ⟨fault, t, by simp only [Parser.orElse, hrun]⟩)
    · simp only [Parser.orElse, h, hrun]
      refine .inr (.inr ⟨rfl, fun b u hb => ?_⟩)
      cases hb
      exact hstays a t h

theorem optional (hp : Local k ts us p q) :
    Local k ts us (Parser.optional p) (Parser.optional q) := by
  have hlooked : ∀ {s}, Looked ts k (p ⟨.tokens ts, none⟩ s) →
      Looked ts k (Parser.optional p ⟨.tokens ts, none⟩ s) := by
    intro s h
    rcases hrun : p ⟨.tokens ts, none⟩ s with ⟨(e | fault) | a, t⟩
    all_goals
      rw [hrun] at h
      simp only [Parser.optional, hrun]
    · exact .inl h
    · exact h
    · exact h
  refine ⟨fun hs => hlooked (hp.beyond hs), fun {s} hs => ?_⟩
  rcases hp.before hs with h | ⟨fault, t, h⟩ | ⟨h, hstays⟩
  · exact .inl (hlooked h)
  · exact .inr (.inl ⟨fault, t, by simp only [Parser.optional, h]⟩)
  · rcases hrun : q ⟨.tokens us, none⟩ s with ⟨(e | fault) | a, t⟩
    all_goals
      rw [hrun] at h
      simp only [Parser.optional, hrun, h]
      refine .inr (.inr ⟨rfl, fun b u hb => ?_⟩)
      cases hb
    · exact ⟨Nat.le_refl _, hs⟩
    · exact hstays a t h

/-! ## Repetition -/

theorem upTo_looked {n : Nat} {s : ParseState} (h : Looked ts k (p ⟨.tokens ts, none⟩ s))
    (ih : ∀ {t}, t.Beyond ts k → Looked ts k (Parser.upTo p n ⟨.tokens ts, none⟩ t)) :
    Looked ts k (Parser.upTo p (n + 1) ⟨.tokens ts, none⟩ s) := by
  rcases hrun : p ⟨.tokens ts, none⟩ s with ⟨(e | fault) | a, t⟩
  all_goals
    rw [hrun] at h
    simp only [Parser.upTo, hrun]
  · exact .inl h
  · trivial
  · split
    · exact h
    · have h' := ih h
      rcases hrun' : Parser.upTo p n ⟨.tokens ts, none⟩ t with ⟨(e | fault) | as, u⟩
      all_goals
        rw [hrun'] at h'
        exact h'

theorem upTo_beyond (hp : Local k ts us p q) (n : Nat) {s : ParseState} (hs : s.Beyond ts k) :
    Looked ts k (Parser.upTo p n ⟨.tokens ts, none⟩ s) := by
  induction n generalizing s with
  | zero => exact hs
  | succ n ih => exact upTo_looked (hp.beyond hs) ih

theorem upTo_before (hp : Local k ts us p q) {m n : Nat} {s : ParseState} (hs : s.cursor < k)
    (hm : k - s.cursor ≤ m) (hn : k - s.cursor ≤ n) :
    Alike ts k s (Parser.upTo p m ⟨.tokens ts, none⟩ s)
      (Parser.upTo q n ⟨.tokens us, none⟩ s) := by
  induction m generalizing n s with
  | zero => omega
  | succ m ih =>
    obtain ⟨n, rfl⟩ : ∃ n', n = n' + 1 := ⟨n - 1, by omega⟩
    rcases hp.before hs with h | ⟨fault, t, h⟩ | ⟨h, hstays⟩
    · exact .inl (upTo_looked h (hp.upTo_beyond m))
    · exact .inr (.inl ⟨fault, t, by simp only [Parser.upTo, h]⟩)
    · rcases hrun : q ⟨.tokens us, none⟩ s with ⟨(e | fault) | a, t⟩
      all_goals
        rw [hrun] at h
        simp only [Parser.upTo, hrun, h]
      · refine .inr (.inr ⟨rfl, fun b u hb => ?_⟩)
        cases hb
        exact ⟨Nat.le_refl _, hs⟩
      · exact .failed
      · have hcur := hstays a t h
        split
        · refine .inr (.inr ⟨rfl, fun b u hb => ?_⟩)
          cases hb
          exact hcur
        · next hne =>
          rcases ih (n := n) hcur.2 (by omega) (by omega) with h' | ⟨fault, u, h'⟩ | ⟨h', hstays'⟩
          · refine .inl ?_
            rcases hrun' : Parser.upTo p m ⟨.tokens ts, none⟩ t with ⟨(e | fault) | as, u⟩
            all_goals
              rw [hrun'] at h'
              exact h'
          · exact .inr (.inl ⟨fault, u, by simp only [h']⟩)
          · rcases hrun' : Parser.upTo q n ⟨.tokens us, none⟩ t with ⟨e | as, u⟩
            all_goals
              rw [hrun'] at h'
              simp only [h']
              refine .inr (.inr ⟨rfl, fun b v hb => ?_⟩)
              cases hb
            have := hstays' as u h'
            omega

theorem repeated (hk : Agrees k ts us) (hp : Local k ts us p q) :
    Local k ts us (Parser.repeated p) (Parser.repeated q) := by
  refine ⟨fun hs => hp.upTo_beyond _ hs, fun {s} hs => hp.upTo_before hs ?_ ?_⟩
  · have := hk.lt_length
    show k - s.cursor ≤ ts.length - s.cursor + 1
    omega
  · have := hk.le_length
    show k - s.cursor ≤ us.length - s.cursor + 1
    omega

theorem many (hk : Agrees k ts us) (hp : Local k ts us p q) :
    Local k ts us (Parser.many p) (Parser.many q) := by
  have hrep := hp.repeated hk
  -- without any rounds the failure is that of the first one
  have hlooked : ∀ {s}, (∀ e u, p ⟨.tokens ts, none⟩ s = (.error (.backtrack e), u) →
      u.Past ts k) → Looked ts k (Parser.repeated p ⟨.tokens ts, none⟩ s) →
      Looked ts k (Parser.many p ⟨.tokens ts, none⟩ s) := by
    intro s hfirst h
    rcases hrun : Parser.repeated p ⟨.tokens ts, none⟩ s with
      ⟨(e | fault) | ⟨_ | ⟨a, as⟩, _ | e⟩, t⟩
    all_goals
      rw [hrun] at h
      simp only [Parser.many, hrun]
    · exact h
    · trivial
    · exact h
    · obtain ⟨u, hu, rfl⟩ := Parser.upTo_eq_nil hrun
      exact hfirst e u hu
    · exact h
    · exact h
  have hbeyond : ∀ {s}, Looked ts k (p ⟨.tokens ts, none⟩ s) →
      Looked ts k (Parser.many p ⟨.tokens ts, none⟩ s) := by
    refine fun {s} h => hlooked (fun e u hu => ?_) (upTo_looked h (hp.upTo_beyond _))
    rw [hu] at h
    exact h
  refine ⟨fun hs => hbeyond (hp.beyond hs), fun {s} hs => ?_⟩
  rcases hp.before hs with h | ⟨fault, t, h⟩ | ⟨h, -⟩
  · exact .inl (hbeyond h)
  · exact .inr (.inl ⟨fault, t, by simp only [Parser.many, Parser.repeated, Parser.upTo, h]⟩)
  · rcases hrun : q ⟨.tokens us, none⟩ s with ⟨(e | fault) | a, t⟩
    all_goals rw [hrun] at h
    · simp only [Parser.many, Parser.repeated, Parser.upTo, h, hrun]
      exact .failed
    · refine .inr (.inl ⟨fault, t, ?_⟩)
      simp only [Parser.many, Parser.repeated, Parser.upTo, hrun]
    · rcases hrep.before hs with h' | ⟨fault, u, h'⟩ | ⟨h', hstays⟩
      · exact .inl (hlooked (fun e u hu => by rw [h] at hu; cases hu) h')
      · exact .inr (.inl ⟨fault, u, by simp only [Parser.many, h']⟩)
      · rcases hrun' : Parser.repeated q ⟨.tokens us, none⟩ s with
          ⟨e | ⟨_ | ⟨b, bs⟩, _ | e⟩, u⟩
        all_goals
          rw [hrun'] at h'
          simp only [Parser.many, h', hrun']
          refine .inr (.inr ⟨rfl, fun d v hd => ?_⟩)
          cases hd
          try exact hstays _ _ h'

/-! ## Answers -/

theorem labelled (hk : Agrees k ts us) (label : String) (hp : Local k ts us p q) :
    Local k ts us (Parser.labelled label p) (Parser.labelled label q) := by
  have hlooked : ∀ {s}, Looked ts k (p ⟨.tokens ts, none⟩ s) →
      Looked ts k (Parser.labelled label p ⟨.tokens ts, none⟩ s) := by
    intro s h
    rcases hrun : p ⟨.tokens ts, none⟩ s with ⟨(e | fault) | a, t⟩
    all_goals
      rw [hrun] at h
      simp only [Parser.labelled, hrun]
    · exact Past.note h _
    · trivial
    · exact h
  refine ⟨fun hs => hlooked (hp.beyond hs), fun {s} hs => ?_⟩
  rcases hp.before hs with h | ⟨fault, t, h⟩ | ⟨h, hstays⟩
  · exact .inl (hlooked h)
  · exact .inr (.inl ⟨fault, t, by simp only [Parser.labelled, h]⟩)
  · rcases hrun : q ⟨.tokens us, none⟩ s with ⟨(e | fault) | a, t⟩
    all_goals
      rw [hrun] at h
      simp only [Parser.labelled, hrun, h]
    · rw [hk.offset hs]
      exact .failed
    · exact .failed
    · refine .inr (.inr ⟨rfl, fun b u hb => ?_⟩)
      cases hb
      exact hstays a t h

theorem wrapped {p q : Parser Parsed} (hk : Agrees k ts us) (kind : String)
    (hp : Local k ts us p q) :
    Local k ts us (Parser.wrapped kind p) (Parser.wrapped kind q) := by
  have hlooked : ∀ {s}, Looked ts k (p ⟨.tokens ts, none⟩ s) →
      Looked ts k (Parser.wrapped kind p ⟨.tokens ts, none⟩ s) := by
    intro s h
    rcases hrun : p ⟨.tokens ts, none⟩ s with ⟨(e | fault) | (v | n), t⟩
    all_goals
      rw [hrun] at h
      simp only [Parser.wrapped, hrun]
      exact h
  refine ⟨fun hs => hlooked (hp.beyond hs), fun {s} hs => ?_⟩
  rcases hp.before hs with h | ⟨fault, t, h⟩ | ⟨h, hstays⟩
  · exact .inl (hlooked h)
  · exact .inr (.inl ⟨fault, t, by simp only [Parser.wrapped, h]⟩)
  · rcases hrun : q ⟨.tokens us, none⟩ s with ⟨e | (v | n), t⟩
    all_goals
      rw [hrun] at h
      simp only [Parser.wrapped, hrun, h]
    · exact .failed
    · rw [hk.offset hs]
      refine .inr (.inr ⟨rfl, fun b u hb => ?_⟩)
      cases hb
      exact hstays _ t h
    · refine .inr (.inr ⟨rfl, fun b u hb => ?_⟩)
      cases hb
      exact hstays _ t h

/-! ## Requests -/

theorem token (hk : Agrees k ts us) (kind : String) :
    Local k ts us (Parser.token kind) (Parser.token kind) := by
  have hfail : ∀ {s : ParseState} {e : ParseError}, s.Beyond ts k →
      e.offset = (Input.tokens ts).offset s.cursor → (s.note e).Past ts k := by
    intro s e hs he
    rcases hs with hs | hs
    · exact hs.note e
    · exact past_note (he ▸ Input.offset_mono hk.sorted hs)
  refine ⟨fun {s} hs => ?_, fun {s} hs => ?_⟩
  · unfold Parser.token
    dsimp only
    split
    · exact hfail hs rfl
    · next x hx =>
      have hx' : x.position = (Input.tokens ts).offset s.cursor := by simp [Input.offset, hx]
      split
      · exact hs.imp id fun h => Nat.le_succ_of_le h
      · exact hfail hs hx'
  · unfold Parser.token
    dsimp only
    rw [hk.getElem? _ hs]
    obtain ⟨x, hx⟩ : ∃ x, ts[s.cursor]? = some x :=
      ⟨_, List.getElem?_eq_getElem (Nat.lt_trans hs hk.lt_length)⟩
    simp only [hx]
    split
    · by_cases hlt : s.cursor + 1 < k
      · exact .inr (.inr ⟨rfl, fun a t h => by cases h; exact ⟨Nat.le_succ _, hlt⟩⟩)
      · exact .inl (.inr (Nat.not_lt.1 hlt))
    · exact .failed

theorem fail (hk : Agrees k ts us) (problem : ParseProblem) :
    Local k ts us (Parser.fail (α := α) problem) (Parser.fail problem) := by
  refine ⟨fun {s} hs => ?_, fun {s} hs => ?_⟩
  · rcases hs with hs | hs
    · exact hs.note _
    · exact past_note (Input.offset_mono hk.sorted hs)
  · refine .inr (.inr ⟨?_, nofun⟩)
    show Parser.failAt problem ((Input.tokens ts).offset s.cursor) _ s =
      Parser.failAt problem ((Input.tokens us).offset s.cursor) _ s
    rw [hk.offset hs]
    rfl

/-- When any module may be asked for, asking for one moves nothing. -/
theorem importModule (module : String) (position : Nat) :
    Local k ts us (Parser.importModule module position) (Parser.importModule module position) := by
  refine of_eq (fun {s} hs => ?_) fun {s} hs => ⟨rfl, fun a t h => ?_⟩
  · show (s.require ⟨module, position⟩).Beyond ts k
    unfold ParseState.Beyond ParseState.Past
    rw [cursor_require, furthest_require]
    exact hs
  · cases h
    exact cursor_require ..

/-- All parsers of a grammar that give no offsets of their own to their errors. -/
theorem respects (hk : Agrees k ts us) : Respects { failAt := False } (Local k ts us) where
  pure := pure
  bind := bind
  token := token hk
  literal _ := ⟨fun _ => trivial, fun _ => .inl trivial⟩
  pattern _ := ⟨fun _ => trivial, fun _ => .inl trivial⟩
  restoring := restoring
  orElse := orElse
  optional := optional
  repeated := repeated hk
  many := many hk
  labelled := labelled hk
  wrapped := wrapped hk
  importModule _ := importModule
  fail := fail hk
  failAt h := h.elim
  offset := of_eq id fun {s} hs =>
    ⟨congrArg (fun i => (Except.ok i, s)) (hk.offset hs).symm, fun _ _ h => by cases h; rfl⟩
  peek := of_eq id fun {s} hs =>
    ⟨congrArg (fun t => (Except.ok t, s)) (hk.getElem? _ hs).symm, fun _ _ h => by cases h; rfl⟩
  abort_left _ _ := ⟨fun _ => trivial, fun _ => .inl trivial⟩
  abort_right fault hp := ⟨hp.beyond, fun {s} _ => .inr (.inl ⟨fault, s, rfl⟩)⟩

end Local

end JayFrontEnd
