import JayFrontEnd.Proofs.Grammar.Opening
import JayFrontEnd.Proofs.Parsing.Reads
import JayFrontEnd.Proofs.Places

/-!
# Parsers that build trees

`Builds ts hasModule? n p e Q` says that over the tokens `ts`, with at most `n` of them left, the
parser `p` passes tokens `w` of the phrase `e` and answers with something of which `Q w` holds, or
that it fails in a way that may be tried again. In both cases the furthest error is the one it came
with, or a new one that stands after a beginning of the phrase. Which modules there are is left
open. The lemmas follow the ways in which parsers are put together.
-/

namespace JayFrontEnd

theorem Parser.bind_eq_ok {α β : Type} {p : Parser α} {g : α → Parser β} {c : Setting}
    {s t : ParseState} {b : β} :
    (p >>= g) c s = (.ok b, t) ↔ ∃ a u, p c s = (.ok a, u) ∧ g a c u = (.ok b, t) := by
  simp only [Bind.bind]
  rcases p c s with ⟨e | a, u⟩
  · constructor
    · intro h
      cases h
    · rintro ⟨_, _, h, -⟩
      cases h
  · constructor
    · exact fun h => ⟨a, u, rfl, h⟩
    · rintro ⟨_, _, h, h'⟩
      cases h
      exact h'

theorem Parser.exists_of_wrapped {kind : String} {p : Parser Parsed} {c : Setting}
    {s t : ParseState} {n : Node} (h : Parser.wrapped kind p c s = (.ok n, t)) :
    ∃ r, p c s = (.ok r, t) := by
  unfold Parser.wrapped at h
  split at h
  · next hp => cases h; exact ⟨_, hp⟩
  · next hp => cases h; exact ⟨_, hp⟩
  · cases h

/-- The first of the tokens, if there is one, stands at the offset. -/
def StartsAt (start : Nat) (w : List Token) : Prop := ∀ t ∈ w.head?, t.position = start

theorem StartsAt.of_append {start : Nat} {v w : List Token} (h : StartsAt start (v ++ w)) :
    StartsAt start v := by
  intro t ht
  cases v with
  | nil => cases ht
  | cons x v => exact h t ht

theorem startsAt_cons (t : Token) (w : List Token) : StartsAt t.position (t :: w) :=
  fun _ h => congrArg Token.position (Option.some.inj h).symm

theorem StartsAt.append {start : Nat} {w : List Token} (h : StartsAt start w) (hw : w ≠ [])
    (v : List Token) : StartsAt start (w ++ v) := by
  obtain ⟨t, u, rfl⟩ := List.exists_cons_of_ne_nil hw
  exact h

/-- The errors of a parse of tokens: something else was expected, or a module is not there. -/
inductive ParseError.ArisesIn (ts : List Token) : ParseError → Prop where
  | expectedToken {kind : String} {found : Option String} {offset : Nat} :
      ArisesIn ts ⟨.expectedToken kind found, offset⟩
  | expected {label : String} {offset : Nat} : ArisesIn ts ⟨.expected label, offset⟩
  | unlocatedModule {keyword module lineEnd : Token} : [keyword, module, lineEnd] <:+: ts →
      keyword.Is .importKeyword → module.Is .string → lineEnd.Is .newline →
      ArisesIn ts ⟨.unlocatedModule module.textD, module.position⟩

namespace ParseState

variable {ts v w : List Token} {s t u : ParseState} {e f : Phrase}

/-- From one state to the other the parser has passed the tokens `w`. -/
structure Passes (ts : List Token) (s : ParseState) (w : List Token) (t : ParseState) : Prop where
  tokens : ts.drop s.cursor = w ++ ts.drop t.cursor
  cursor : t.cursor = s.cursor + w.length

namespace Passes

theorem refl (h : t.cursor = s.cursor) : s.Passes ts [] t :=
  ⟨by rw [h]; rfl, h⟩

theorem congr (h : s.Passes ts w t) (hc : u.cursor = t.cursor) : s.Passes ts w u :=
  ⟨hc ▸ h.tokens, hc.trans h.cursor⟩

theorem trans (h : s.Passes ts v t) (h' : t.Passes ts w u) : s.Passes ts (v ++ w) u where
  tokens := by rw [h.tokens, h'.tokens, List.append_assoc]
  cursor := by rw [h'.cursor, h.cursor, List.length_append, Nat.add_assoc]

theorem kinds (h : s.Passes ts w t) : s.kinds ts = w.map (·.kind) ++ t.kinds ts := by
  rw [ParseState.kinds, h.tokens, List.map_append]
  rfl

theorem takes (h : s.Passes ts w t) (hd : Derives e (w.map (·.kind)) (t.kinds ts)) :
    e.Takes (s.kinds ts) (t.kinds ts) :=
  ⟨_, h.kinds, hd⟩

theorem startsAt (h : s.Passes ts w t) : StartsAt ((Input.tokens ts).offset s.cursor) w := by
  intro x hx
  have hget : ts[s.cursor]? = some x := by
    rw [← Nat.add_zero s.cursor, ← List.getElem?_drop, h.tokens, ← List.head?_eq_getElem?]
    cases w with
    | nil => cases hx
    | cons y w => exact hx
  simp only [Input.offset, hget]
  rfl

end Passes

/-- The error stands after a beginning of the phrase. -/
def Sees (ts : List Token) (e : Phrase) (s : ParseState) (err : ParseError) : Prop :=
  ∃ v, v <+: ts.drop s.cursor ∧ e.Opens (v.map (·.kind)) ∧
    err.offset = (Input.tokens ts).offset (s.cursor + v.length) ∧ err.ArisesIn ts

theorem Sees.mono {err : ParseError} (h : s.Sees ts e err)
    (hef : ∀ {v}, e.Opens v → f.Opens v) : s.Sees ts f err := by
  obtain ⟨v, hv, ho, he⟩ := h
  exact ⟨v, hv, hef ho, he⟩

/-- Nothing was taken: the error stands where the phrase should have begun. -/
theorem sees_here {problem : ParseProblem}
    (hp : ParseError.ArisesIn ts ⟨problem, (Input.tokens ts).offset s.cursor⟩) :
    s.Sees ts e ⟨problem, (Input.tokens ts).offset s.cursor⟩ :=
  ⟨[], List.nil_prefix, e.opens_nil, rfl, hp⟩

/-- An error in what comes after a phrase. -/
theorem Sees.seq {err : ParseError} (h : t.Sees ts f err) (hw : s.Passes ts w t)
    (hd : Derives e (w.map (·.kind)) (t.kinds ts)) : s.Sees ts (.seq e f) err := by
  obtain ⟨v, ⟨rest, hv⟩, ho, hoff, hp⟩ := h
  refine ⟨w ++ v, ⟨rest, ?_⟩, ?_, ?_, hp⟩
  · rw [hw.tokens, List.append_assoc, hv]
  · have hkinds : t.kinds ts = v.map (·.kind) ++ rest.map (·.kind) := by
      rw [ParseState.kinds, ← hv, List.map_append]
    rw [List.map_append]
    exact .seq (hkinds ▸ hd) (Phrase.opens_of_derives hd) ho
  · rw [hoff, hw.cursor, List.length_append, Nat.add_assoc]

/-- An error in one of the later rounds of a repetition. -/
theorem Sees.more {err : ParseError} (h : t.Sees ts (.many e) err) (hw : s.Passes ts w t)
    (hd : Derives e (w.map (·.kind)) (t.kinds ts)) : s.Sees ts (.many e) err := by
  obtain ⟨v, ⟨rest, hv⟩, ho, hoff, hp⟩ := h
  refine ⟨w ++ v, ⟨rest, ?_⟩, ?_, ?_, hp⟩
  · rw [hw.tokens, List.append_assoc, hv]
  · have hkinds : t.kinds ts = v.map (·.kind) ++ rest.map (·.kind) := by
      rw [ParseState.kinds, ← hv, List.map_append]
    rw [List.map_append]
    exact .more (hkinds ▸ hd) (Phrase.opens_of_derives hd) ho
  · rw [hoff, hw.cursor, List.length_append, Nat.add_assoc]

/-- The furthest error is the one that was there, or stands after a beginning of the phrase. -/
def Keeps (ts : List Token) (e : Phrase) (s t : ParseState) : Prop :=
  t.furthest = s.furthest ∨ ∃ err, t.furthest = some err ∧ s.Sees ts e err

namespace Keeps

theorem mono (h : s.Keeps ts e t) (hef : ∀ {v}, e.Opens v → f.Opens v) : s.Keeps ts f t :=
  h.imp_right fun ⟨err, ht, he⟩ => ⟨err, ht, he.mono hef⟩

theorem note {err : ParseError} (h : s.Keeps ts e t) (he : s.Sees ts e err) :
    s.Keeps ts e (t.note err) := by
  cases hf : t.furthest with
  | none => exact .inr ⟨err, by simp only [ParseState.note, hf], he⟩
  | some g =>
    have hnote : (t.note err).furthest = some (g.max err) := by simp only [ParseState.note, hf]
    unfold ParseError.max at hnote
    split at hnote
    · exact .inr ⟨err, hnote, he⟩
    · rcases h with h | ⟨g', hg', hsees⟩
      · exact .inl (hnote.trans (hf.symm.trans h))
      · exact .inr ⟨g, hnote, Option.some.inj (hf.symm.trans hg') ▸ hsees⟩

/-- Two parsers tried one after the other from the same cursor. -/
theorem trans (h : s.Keeps ts e t) (h' : t.Keeps ts e u) (hc : t.cursor = s.cursor) :
    s.Keeps ts e u := by
  rcases h' with h' | ⟨err, hu, he⟩
  · exact h.imp h'.trans fun ⟨err, ht, he⟩ => ⟨err, h'.trans ht, he⟩
  · unfold Sees at he
    rw [hc] at he
    exact .inr ⟨err, hu, he⟩

theorem seq (h : s.Keeps ts e t) (h' : t.Keeps ts f u) (hw : s.Passes ts w t)
    (hd : Derives e (w.map (·.kind)) (t.kinds ts)) : s.Keeps ts (.seq e f) u := by
  rcases h' with h' | ⟨err, hu, he⟩
  · rcases h with h | ⟨err, ht, he⟩
    · exact .inl (h'.trans h)
    · exact .inr ⟨err, h'.trans ht, he.mono (.append · f.opens_nil)⟩
  · exact .inr ⟨err, hu, he.seq hw hd⟩

theorem more (h : s.Keeps ts e t) (h' : t.Keeps ts (.many e) u) (hw : s.Passes ts w t)
    (hd : Derives e (w.map (·.kind)) (t.kinds ts)) : s.Keeps ts (.many e) u := by
  rcases h' with h' | ⟨err, hu, he⟩
  · rcases h with h | ⟨err, ht, he⟩
    · exact .inl (h'.trans h)
    · exact .inr ⟨err, h'.trans ht, he.mono .many⟩
  · exact .inr ⟨err, hu, he.more hw hd⟩

end Keeps

theorem isSome_note (s : ParseState) (err : ParseError) : (s.note err).furthest.isSome = true := rfl

end ParseState

open ParseState

structure Builds {α : Type} (ts : List Token) (hasModule? : Option (String → Bool)) (n : Nat)
    (p : Parser α) (e : Phrase) (Q : List Token → α → Prop) : Prop where
  answers : ∀ {s : ParseState}, (s.kinds ts).length ≤ n →
    (∃ a t w, p ⟨.tokens ts, hasModule?⟩ s = (.ok a, t) ∧ s.Passes ts w t ∧
      Derives e (w.map (·.kind)) (t.kinds ts) ∧ Q w a ∧ s.Keeps ts e t) ∨
    ∃ err t, p ⟨.tokens ts, hasModule?⟩ s = (.error (.backtrack err), t) ∧ s.Keeps ts e t ∧
      t.furthest.isSome = true

namespace Builds

variable {α β : Type} {ts : List Token} {hasModule? : Option (String → Bool)} {n : Nat}
  {p q : Parser α} {e f : Phrase} {Q R : List Token → α → Prop}

theorem weaken (hp : Builds ts hasModule? n p e Q) (h : ∀ {w a}, Q w a → R w a) :
    Builds ts hasModule? n p e R :=
  ⟨fun hn => (hp.answers hn).imp_left fun ⟨a, t, w, hrun, hw, hd, hq, hk⟩ =>
    ⟨a, t, w, hrun, hw, hd, h hq, hk⟩⟩

/-- The same parser, seen as one of a phrase that derives more. -/
theorem ofPhrase (hp : Builds ts hasModule? n p e Q)
    (hef : ∀ {w rest}, Derives e w rest → Derives f w rest) : Builds ts hasModule? n p f Q := by
  have hopens : ∀ {v}, e.Opens v → f.Opens v := fun ⟨u, hu⟩ => ⟨u, fun rest => hef (hu rest)⟩
  refine ⟨fun hn => (hp.answers hn).imp ?_ ?_⟩
  · rintro ⟨a, t, w, hrun, hw, hd, hq, hk⟩
    exact ⟨a, t, w, hrun, hw, hef hd, hq, hk.mono hopens⟩
  · rintro ⟨err, t, hrun, hk, hs⟩
    exact ⟨err, t, hrun, hk.mono hopens, hs⟩

theorem rule {r : Nonterminal} (hp : Builds ts hasModule? n p r.production Q) :
    Builds ts hasModule? n p (.rule r) Q :=
  hp.ofPhrase .rule

theorem pure {a : α} (ha : Q [] a) : Builds ts hasModule? n (Pure.pure a : Parser α) .empty Q :=
  ⟨fun _ => .inl ⟨a, _, [], rfl, .refl rfl, .empty, ha, .inl rfl⟩⟩

theorem token (k : TokenKind) : Builds ts hasModule? n (Parser.token k.name) (.token k)
    fun w a => ∃ t : Token, t.Is k ∧ w = [t] ∧ a = .ofToken t := by
  refine ⟨fun {s} _ => ?_⟩
  -- a failure stands at the cursor
  have hfail : ∀ found : Option String, Parser.token k.name ⟨.tokens ts, hasModule?⟩ s =
      Parser.fail (.expectedToken k.name found) ⟨.tokens ts, hasModule?⟩ s →
      ∃ err t, Parser.token k.name ⟨.tokens ts, hasModule?⟩ s = (.error (.backtrack err), t) ∧
        s.Keeps ts (.token k) t ∧ t.furthest.isSome = true :=
    fun _ hrun => ⟨_, _, hrun, .note (.inl rfl) (sees_here .expectedToken), isSome_note ..⟩
  cases hx : ts[s.cursor]? with
  | none =>
    refine .inr (hfail none ?_)
    simp only [Parser.token, hx]
  | some x =>
    by_cases hk : x.kind = k.name
    · obtain ⟨hlt, rfl⟩ := List.getElem?_eq_some_iff.1 hx
      have hpass : s.Passes ts [ts[s.cursor]] (s.moveTo (s.cursor + 1)) :=
        ⟨List.drop_eq_getElem_cons hlt, rfl⟩
      refine .inl ⟨_, _, _, Parser.token_of_kind hx hk, hpass, ?_, ⟨_, hk, rfl, rfl⟩, .inl rfl⟩
      rw [List.map_singleton, hk]
      exact .token
    · have hoff : x.position = (Input.tokens ts).offset s.cursor := by
        simp only [Input.offset, hx]
        rfl
      refine .inr (hfail (some x.kind) ?_)
      simp only [Parser.token, hx, beq_iff_eq, hk, if_false, hoff]
      rfl

/-- One parser after another. The second works with fewer tokens if the first has used some. -/
theorem bind {g : α → Parser β} {R : List Token → β → Prop} (hp : Builds ts hasModule? n p e Q)
    (hg : ∀ a w m, Q w a → m ≤ n → (e.consumes = true → m < n) →
      Builds ts hasModule? m (g a) f fun w' b => R (w ++ w') b) :
    Builds ts hasModule? n (p >>= g) (.seq e f) R := by
  refine ⟨fun {s} hn => ?_⟩
  rcases hp.answers hn with ⟨a, t, w, hrun, hw, hd, hq, hk⟩ | ⟨err, t, hrun, hk, hs⟩
  · have htakes := hw.takes hd
    have hle := Nat.le_trans htakes.length_le hn
    have hlt : e.consumes = true → (t.kinds ts).length < n :=
      fun he => Nat.lt_of_lt_of_le (htakes.length_lt he) hn
    have hbind : (p >>= g) ⟨.tokens ts, hasModule?⟩ s = g a ⟨.tokens ts, hasModule?⟩ t := by
      simp only [Bind.bind, hrun]
    rw [hbind]
    refine ((hg a w _ hq hle hlt).answers (Nat.le_refl _)).imp ?_ ?_
    · rintro ⟨b, u, w', hb, hw', hd', hr, hk'⟩
      refine ⟨b, u, w ++ w', hb, hw.trans hw', ?_, hr, hk.seq hk' hw hd⟩
      rw [List.map_append]
      exact .seq (hw'.kinds ▸ hd) hd'
    · rintro ⟨err, u, hb, hk', hs⟩
      exact ⟨err, u, hb, hk.seq hk' hw hd, hs⟩
  · refine .inr ⟨err, t, by simp only [Bind.bind, hrun], hk.mono (.append · f.opens_nil), hs⟩

/-! ## Choice -/

theorem restoring (hp : Builds ts hasModule? n p e Q) :
    Builds ts hasModule? n (Parser.restoring p) e Q := by
  refine ⟨fun {s} hn => ?_⟩
  rcases hp.answers hn with ⟨a, t, w, hrun, h⟩ | ⟨err, t, hrun, hk, hs⟩
  · exact .inl ⟨a, t, w, by simp only [Parser.restoring, hrun], h⟩
  · exact .inr ⟨err, t.moveTo s.cursor, by simp only [Parser.restoring, hrun], hk, hs⟩

theorem orElse (hp : Builds ts hasModule? n p e Q) (hq : Builds ts hasModule? n q f Q) :
    Builds ts hasModule? n (Parser.orElse p q) (.alt e f) Q := by
  refine ⟨fun {s} hn => ?_⟩
  rcases hp.answers hn with ⟨a, t, w, hrun, hw, hd, ha, hk⟩ | ⟨err, t, hrun, hk, hs⟩
  · exact .inl ⟨a, t, w, by simp only [Parser.orElse, hrun], hw, .left hd, ha, hk.mono .left⟩
  · have hk' : s.Keeps ts (.alt e f) (t.moveTo s.cursor) := hk.mono .left
    rcases hq.answers (s := t.moveTo s.cursor) hn with
      ⟨a, u, w, hrun', hw, hd, ha, hu⟩ | ⟨err', u, hrun', hu, hs'⟩
    · exact .inl ⟨a, u, w, by simp only [Parser.orElse, hrun, hrun'], ⟨hw.tokens, hw.cursor⟩,
        .right hd, ha, hk'.trans (hu.mono .right) rfl⟩
    · exact .inr ⟨err.max err', u, by simp only [Parser.orElse, hrun, hrun'],
        hk'.trans (hu.mono .right) rfl, hs'⟩

theorem optional (hp : Builds ts hasModule? n p e Q) :
    Builds ts hasModule? n (Parser.optional p) (.opt e) fun w o =>
      ∃ x : Option (List Token × α), (∀ y ∈ x, Q y.1 y.2) ∧ w = x.elim [] (·.1) ∧
        o = x.map (·.2) := by
  refine ⟨fun {s} hn => .inl ?_⟩
  rcases hp.answers hn with ⟨a, t, w, hrun, hw, hd, ha, hk⟩ | ⟨err, t, hrun, hk, -⟩
  · refine ⟨some a, t, w, by simp only [Parser.optional, hrun], hw, .present hd, ⟨some (w, a), ?_⟩,
      hk.mono .opt⟩
    exact ⟨fun y hy => Option.some.inj hy ▸ ha, rfl, rfl⟩
  · exact ⟨none, t.moveTo s.cursor, [], by simp only [Parser.optional, hrun], .refl rfl, .absent,
      ⟨none, (fun _ h => by cases h), rfl, rfl⟩, hk.mono .opt⟩

/-! ## Repetition -/

theorem upTo (hp : Builds ts hasModule? n p e Q) (count : Nat) :
    Builds ts hasModule? n (Parser.upTo p count) (.many e) fun w as =>
      ∃ xs : List (List Token × α), (∀ x ∈ xs, Q x.1 x.2) ∧ w = xs.flatMap (·.1) ∧
        as.1 = xs.map (·.2) := by
  induction count with
  | zero =>
    exact ⟨fun _ => .inl ⟨_, _, [], rfl, .refl rfl, .done, ⟨[], nofun, rfl, rfl⟩, .inl rfl⟩⟩
  | succ count ih =>
    refine ⟨fun {s} hn => ?_⟩
    rcases hp.answers hn with ⟨a, t, w, hrun, hw, hd, ha, hk⟩ | ⟨err, t, hrun, hk, -⟩
    · by_cases hcur : t.cursor = s.cursor
      · have hnil : w = [] := List.eq_nil_of_length_eq_zero (by have := hw.cursor; omega)
        have hmore := Derives.more (w := []) hd .done
        refine .inl ⟨_, t, w, by simp only [Parser.upTo, hrun, if_pos hcur]; rfl, hw, ?_,
          ⟨[(w, a)], ?_, ?_, rfl⟩, hk.mono .many⟩
        · rwa [List.append_nil] at hmore
        · exact fun x hx => List.mem_singleton.1 hx ▸ ha
        · rw [hnil]; rfl
      · have hle := Nat.le_trans (hw.takes hd).length_le hn
        rcases ih.answers hle with
          ⟨as, u, w', hrun', hw', hd', ⟨xs, hxs, rfl, has⟩, hk'⟩ | ⟨err, u, hrun', hk', hs⟩
        · refine .inl ⟨_, u, _, by simp only [Parser.upTo, hrun, if_neg hcur, hrun']; rfl,
            hw.trans hw', ?_, ⟨(w, a) :: xs, ?_, rfl, ?_⟩, hk.more hk' hw hd⟩
          · rw [List.map_append]
            exact .more (hw'.kinds ▸ hd) hd'
          · exact List.forall_mem_cons.2 ⟨ha, hxs⟩
          · rw [List.map_cons, ← has]
        · exact .inr ⟨err, u, by simp only [Parser.upTo, hrun, if_neg hcur, hrun'],
            hk.more hk' hw hd, hs⟩
    · exact .inl ⟨_, t.moveTo s.cursor, [], by simp only [Parser.upTo, hrun]; rfl, .refl rfl,
        .done, ⟨[], nofun, rfl, rfl⟩, hk.mono .many⟩

theorem any (hp : Builds ts hasModule? n p e Q) :
    Builds ts hasModule? n (Parser.any p) (.many e) fun w as =>
      ∃ xs : List (List Token × α), (∀ x ∈ xs, Q x.1 x.2) ∧ w = xs.flatMap (·.1) ∧
        as = xs.map (·.2) := by
  refine ⟨fun {s} hn => ?_⟩
  rcases (hp.upTo (ts.length - s.cursor + 1)).answers hn with
    ⟨as, t, w, hrun, h⟩ | ⟨err, t, hrun, h⟩
  · have hrep : Parser.repeated p ⟨.tokens ts, hasModule?⟩ s = (.ok as, t) := hrun
    refine .inl ⟨as.1, t, w, ?_, h⟩
    simp only [Parser.any, Bind.bind, hrep]
    rfl
  · have hrep : Parser.repeated p ⟨.tokens ts, hasModule?⟩ s = (.error (.backtrack err), t) := hrun
    exact .inr ⟨err, t, by simp only [Parser.any, Bind.bind, hrep], h⟩

/-- A repetition of something that uses input ends where it fails. -/
theorem upTo_ends (hp : Builds ts hasModule? n p e Q) (he : e.consumes = true) {count : Nat}
    {s t : ParseState} {as : List α × Option ParseError} (hn : (s.kinds ts).length ≤ n)
    (hcount : (s.kinds ts).length < count)
    (hrun : Parser.upTo p count ⟨.tokens ts, hasModule?⟩ s = (.ok as, t)) :
    ∃ u v err, p ⟨.tokens ts, hasModule?⟩ u = (.error (.backtrack err), v) ∧
      t = v.moveTo u.cursor := by
  induction count generalizing s as with
  | zero => exact absurd hcount (Nat.not_lt_zero _)
  | succ count ih =>
    unfold Parser.upTo at hrun
    rcases hp.answers hn with ⟨a, u, w, hu, hw, hd, -⟩ | ⟨err, v, hv, -⟩
    · have hlt := (hw.takes hd).length_lt he
      have hcur : u.cursor ≠ s.cursor := fun h => by
        rw [ParseState.kinds_congr h] at hlt
        exact Nat.lt_irrefl _ hlt
      simp only [hu, if_neg hcur] at hrun
      split at hrun
      · next as' e' u' hrest =>
        cases hrun
        exact ih (by omega) (by omega) hrest
      · cases hrun
    · simp only [hv] at hrun
      cases hrun
      exact ⟨s, v, err, hv, rfl⟩

theorem any_ends (hp : Builds ts hasModule? n p e Q) (he : e.consumes = true) {s t : ParseState}
    {as : List α} (hn : (s.kinds ts).length ≤ n)
    (hrun : Parser.any p ⟨.tokens ts, hasModule?⟩ s = (.ok as, t)) :
    ∃ u v err, p ⟨.tokens ts, hasModule?⟩ u = (.error (.backtrack err), v) ∧
      t = v.moveTo u.cursor := by
  obtain ⟨bs, u, hrep, hu⟩ := Parser.bind_eq_ok.1 hrun
  cases hu
  have hcount : (s.kinds ts).length < ts.length - s.cursor + 1 := by
    rw [ParseState.length_kinds]
    omega
  exact hp.upTo_ends he hn hcount hrep

/-! ## Answers -/

/-- A node of a kind, or one that is passed on: what holds of the node holds of the result. -/
theorem wrapped {p : Parser Parsed} (kind : String) {Q : List Token → Parsed → Prop}
    {R : List Token → Node → Prop} (hp : Builds ts hasModule? n p e Q)
    (hvalue : ∀ {w v start}, Q w (.value v) → StartsAt start w → R w (.mk start kind v))
    (hnode : ∀ {w m}, Q w (.node m) → R w m) :
    Builds ts hasModule? n (Parser.wrapped kind p) e R := by
  refine ⟨fun {s} hn => ?_⟩
  rcases hp.answers hn with ⟨a, t, w, hrun, hw, hd, ha, hk⟩ | ⟨err, t, hrun, h⟩
  · cases a with
    | value v => exact .inl ⟨_, t, w, by simp only [Parser.wrapped, hrun], hw, hd,
        hvalue ha hw.startsAt, hk⟩
    | node m => exact .inl ⟨m, t, w, by simp only [Parser.wrapped, hrun], hw, hd, hnode ha, hk⟩
  · exact .inr ⟨err, t, by simp only [Parser.wrapped, hrun], h⟩

theorem labelled (label : String) (hp : Builds ts hasModule? n p e Q) :
    Builds ts hasModule? n (Parser.labelled label p) e Q := by
  refine ⟨fun {s} hn => ?_⟩
  rcases hp.answers hn with ⟨a, t, w, hrun, h⟩ | ⟨err, t, hrun, hk, -⟩
  · exact .inl ⟨a, t, w, by simp only [Parser.labelled, hrun], h⟩
  · exact .inr ⟨_, _, by simp only [Parser.labelled, hrun]; rfl, hk.note (sees_here .expected),
      isSome_note ..⟩

/-! ## Scripts -/

variable {apply : String → Parser Node} {atoms : List Atom} {P : List Token → Node → Prop}
  {S : List Token → Parsed → Prop}

theorem done {result : Parsed} (h : S [] result) :
    Builds ts hasModule? n ((Script.done result).run apply) .empty S :=
  pure h

theorem one {next : Node → Script}
    (hp : Builds ts hasModule? n (Parser.firstOf (Atom.attempts apply atoms)) e P)
    (hnext : ∀ a w m, P w a → m ≤ n → (e.consumes = true → m < n) →
      Builds ts hasModule? m ((next a).run apply) f fun v b => S (w ++ v) b) :
    Builds ts hasModule? n ((Script.one atoms next).run apply) (.seq e f) S :=
  hp.bind hnext

theorem opt {next : Option Node → Script}
    (hp : Builds ts hasModule? n (Parser.firstOf (Atom.attempts apply atoms)) e P)
    (hnext : ∀ (x : Option (List Token × Node)) m, (∀ y ∈ x, P y.1 y.2) → m ≤ n →
      Builds ts hasModule? m ((next (x.map (·.2))).run apply) f
        fun v b => S (x.elim [] (·.1) ++ v) b) :
    Builds ts hasModule? n ((Script.opt atoms next).run apply) (.seq (.opt e) f) S := by
  refine hp.optional.bind fun a w m hq hm _ => ?_
  obtain ⟨x, hx, rfl, rfl⟩ := hq
  exact hnext x m hx hm

theorem many {next : List Node → Script}
    (hp : Builds ts hasModule? n (Parser.firstOf (Atom.attempts apply atoms)) e P)
    (hnext : ∀ (xs : List (List Token × Node)) m, (∀ x ∈ xs, P x.1 x.2) → m ≤ n →
      Builds ts hasModule? m ((next (xs.map (·.2))).run apply) f
        fun v b => S (xs.flatMap (·.1) ++ v) b) :
    Builds ts hasModule? n ((Script.any atoms next).run apply) (.seq (.many e) f) S := by
  refine hp.any.bind fun a w m hq hm _ => ?_
  obtain ⟨xs, hxs, rfl, rfl⟩ := hq
  exact hnext xs m hxs hm

/-- Once the first part of something optional is there, so is the second. -/
theorem optThen {next : Option Node → Script}
    (hp : Builds ts hasModule? n (Parser.firstOf (Atom.attempts apply atoms)) e P)
    (hnone : ∀ m, Builds ts hasModule? m ((next none).run apply) .empty S)
    (hsome : ∀ a w m, P w a → m ≤ n → (e.consumes = true → m < n) →
      Builds ts hasModule? m ((next (some a)).run apply) f fun v b => S (w ++ v) b) :
    Builds ts hasModule? n ((Script.opt atoms next).run apply)
      (.seq (.opt (.seq e f)) .empty) S := by
  show Builds ts hasModule? n (Parser.optional (Parser.firstOf (Atom.attempts apply atoms)) >>=
    fun a => (next a).run apply) _ S
  have hgo : Builds ts hasModule? n (Parser.firstOf (Atom.attempts apply atoms) >>= fun a =>
      (next (some a)).run apply) (.seq e f) S := hp.bind hsome
  have hpresent : ∀ {w rest}, Derives (.seq e f) w rest →
      Derives (.seq (.opt (.seq e f)) .empty) w rest := by
    intro w rest hd
    have := Derives.seq (w := []) (.present hd) .empty
    rwa [List.append_nil] at this
  have habsent : ∀ {w rest}, Derives .empty w rest →
      Derives (.seq (.opt (.seq e f)) .empty) w rest := fun hd => .seq .absent hd
  refine ⟨fun {s} hn => ?_⟩
  rcases hp.answers hn with ⟨a, t, w, hrun, -⟩ | ⟨err, t, hrun, hk, -⟩
  · have hstep := (hgo.ofPhrase hpresent).answers hn
    simp only [Bind.bind, hrun] at hstep
    simp only [Bind.bind, Parser.optional, hrun]
    exact hstep
  · simp only [Bind.bind, Parser.optional, hrun]
    have hkeep : s.Keeps ts (.seq (.opt (.seq e f)) .empty) (t.moveTo s.cursor) :=
      hk.mono fun h => .append (.opt (.append h f.opens_nil)) (Phrase.opens_nil _)
    refine (((hnone _).ofPhrase habsent).answers (s := t.moveTo s.cursor) (Nat.le_refl _)).imp ?_ ?_
    · rintro ⟨b, u, w, hb, hw, hd, hs, hk'⟩
      exact ⟨b, u, w, hb, ⟨hw.tokens, hw.cursor⟩, hd, hs, hkeep.trans hk' rfl⟩
    · rintro ⟨err', u, hb, hk', hs⟩
      exact ⟨err', u, hb, hkeep.trans hk' rfl, hs⟩

theorem last (hp : Builds ts hasModule? n (Parser.firstOf (Atom.attempts apply atoms)) e P)
    (hs : ∀ {w a}, P w a → S w (.node a)) :
    Builds ts hasModule? n ((Script.one atoms .node).run apply) e S := by
  have hone : Builds ts hasModule? n ((Script.one atoms .node).run apply) (.seq e .empty) S :=
    hp.one fun a w m ha _ _ => .done (by rw [List.append_nil]; exact hs ha)
  refine hone.ofPhrase fun hd => ?_
  cases hd with
  | seq he hf =>
    cases hf
    rwa [List.append_nil]

/-- What holds if the offset is the one where the tokens start. -/
theorem offset {next : Nat → Script}
    (hp : ∀ i, Builds ts hasModule? n ((next i).run apply) e fun w b => StartsAt i w → S w b) :
    Builds ts hasModule? n ((Script.offset next).run apply) e S := by
  refine ⟨fun {s} hn => ((hp ((Input.tokens ts).offset s.cursor)).answers hn).imp_left ?_⟩
  rintro ⟨b, t, w, hrun, hw, hd, hs, hk⟩
  exact ⟨b, t, w, hrun, hw, hd, hs hw.startsAt, hk⟩

end Builds

end JayFrontEnd
