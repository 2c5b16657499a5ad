import JayFrontEnd.Parsing.Apply
import JayFrontEnd.Proofs.Grammar.Phrase

/-!
# Parsers that read phrases

`Reads ts n p e ks` says that over the tokens `ts`, with at most `n` of them left, the parser `p`
reads the phrase `e`: it takes nothing but `e`, its failures may be tried again, and if `e` leads
to a point where none of the kinds `ks` comes next, that is where it stops. The lemmas follow the
ways in which parsers are put together. In each, the kinds that would go on with the first part
are not those that the second part starts with.
-/

namespace JayFrontEnd

namespace ParseState

def kinds (ts : List Token) (s : ParseState) : List String := (ts.drop s.cursor).map (·.kind)

variable {ts : List Token} {s t : ParseState}

theorem kinds_eq_cons {x : Token} (h : ts[s.cursor]? = some x) :
    s.kinds ts = x.kind :: (s.moveTo (s.cursor + 1)).kinds ts := by
  obtain ⟨hlt, rfl⟩ := List.getElem?_eq_some_iff.1 h
  rw [kinds, List.drop_eq_getElem_cons hlt]
  rfl

theorem kinds_eq_nil (h : ts[s.cursor]? = none) : s.kinds ts = [] := by
  rw [kinds, List.drop_eq_nil_of_le (List.getElem?_eq_none_iff.1 h)]
  rfl

theorem kinds_congr (h : t.cursor = s.cursor) : t.kinds ts = s.kinds ts := by
  rw [kinds, kinds, h]

theorem head?_kinds {kind : String} :
    (s.kinds ts).head? = some kind ↔ (ts[s.cursor]?).any (·.kind == kind) = true := by
  cases hx : ts[s.cursor]? with
  | none => simp [kinds_eq_nil hx]
  | some x => simp [kinds_eq_cons hx]

theorem length_kinds (ts : List Token) (s : ParseState) :
    (s.kinds ts).length = ts.length - s.cursor := by
  rw [kinds, List.length_map, List.length_drop]

theorem length_kinds_le (ts : List Token) (s : ParseState) : (s.kinds ts).length ≤ ts.length := by
  rw [length_kinds]
  exact Nat.sub_le ..

theorem cursor_require (s : ParseState) (i : Import) : (s.require i).cursor = s.cursor := by
  unfold require
  split <;> rfl

theorem furthest_require (s : ParseState) (i : Import) :
    (s.require i).furthest = s.furthest := by
  unfold require
  split <;> rfl

end ParseState

theorem Parser.token_of_kind {ts : List Token} {hasModule? : Option (String → Bool)}
    {s : ParseState} {x : Token} {kind : String} (hx : ts[s.cursor]? = some x)
    (hk : x.kind = kind) : Parser.token kind ⟨.tokens ts, hasModule?⟩ s =
      (.ok (.ofToken x), s.moveTo (s.cursor + 1)) := by
  simp only [Parser.token, hx, hk, beq_self_eq_true, if_true]

theorem Parser.wrapped_ok (kind : String) {p : Parser Parsed} {c : Setting} {s t : ParseState}
    {a : Parsed} (h : p c s = (.ok a, t)) : ∃ m, Parser.wrapped kind p c s = (.ok m, t) := by
  cases a with
  | value v => exact ⟨_, by simp only [Parser.wrapped, h]; rfl⟩
  | node m => exact ⟨m, by simp only [Parser.wrapped, h]⟩

theorem Parser.upTo_succ_of_ok {α : Type} {p : Parser α} {n : Nat} {c : Setting}
    {s t u : ParseState} {a : α} {rest : List α × Option ParseError} (h : p c s = (.ok a, t))
    (hcursor : t.cursor ≠ s.cursor) (hrest : Parser.upTo p n c t = (.ok rest, u)) :
    Parser.upTo p (n + 1) c s = (.ok (a :: rest.1, rest.2), u) := by
  unfold Parser.upTo
  simp only [h, if_neg hcursor, hrest]

/-- No more rounds: the next one failed, or it was the last as it used no input. -/
theorem Parser.upTo_succ_eq_ok {α : Type} {p : Parser α} {n : Nat} {c : Setting}
    {s u : ParseState} {answers : List α × Option ParseError}
    (h : Parser.upTo p (n + 1) c s = (.ok answers, u)) :
    (∃ e t, p c s = (.error (.backtrack e), t) ∧ answers = ([], some e) ∧ u = t.moveTo s.cursor) ∨
    (∃ a, p c s = (.ok a, u) ∧ u.cursor = s.cursor ∧ answers = ([a], none)) ∨
    ∃ a t rest, p c s = (.ok a, t) ∧ t.cursor ≠ s.cursor ∧
      Parser.upTo p n c t = (.ok rest, u) ∧ answers = (a :: rest.1, rest.2) := by
  unfold Parser.upTo at h
  rcases hrun : p c s with ⟨(e | fault) | a, t⟩ <;> simp only [hrun] at h
  · cases h
    exact .inl ⟨e, t, rfl, rfl, rfl⟩
  · cases h
  · by_cases hcursor : t.cursor = s.cursor
    · rw [if_pos hcursor] at h
      cases h
      exact .inr (.inl ⟨a, rfl, hcursor, rfl⟩)
    · rw [if_neg hcursor] at h
      split at h
      · next hrest =>
        cases h
        exact .inr (.inr ⟨a, t, _, rfl, hcursor, hrest, rfl⟩)
      · cases h

theorem Parser.upTo_eq_nil {α : Type} {p : Parser α} {n : Nat} {c : Setting} {s t : ParseState}
    {e : ParseError} (h : Parser.upTo p n c s = (.ok ([], some e), t)) :
    ∃ u, p c s = (.error (.backtrack e), u) ∧ t = u.moveTo s.cursor := by
  cases n with
  | zero => cases h
  | succ n =>
    rcases Parser.upTo_succ_eq_ok h with ⟨_, u, hrun, heq, ht⟩ | ⟨_, -, -, heq⟩ |
      ⟨_, _, _, -, -, -, heq⟩ <;> cases heq
    exact ⟨u, hrun, ht⟩

theorem Grammar.parse_ok_iff {g : Grammar} {c : Setting} (hg : g.validate = .ok ()) :
    (∃ out, g.parse c = .ok out) ↔
      ∃ tree s, g.apply g.root c {} = (.ok tree, s) ∧ c.input.isEnd s.cursor = true := by
  have hrule : g.rule g.root = Parser.restoring (g.apply g.root) := rfl
  rw [Grammar.parse, hg, hrule, Parser.restoring]
  rcases h : g.apply g.root c {} with ⟨(_ | _) | tree, s⟩
  · simp [Bind.bind, Except.bind]
  · simp [Bind.bind, Except.bind]
  · by_cases hend : c.input.isEnd s.cursor = true
    · simp only [Bind.bind, Except.bind, if_pos hend]
      exact ⟨fun _ => ⟨tree, s, rfl, hend⟩, fun _ => ⟨_, rfl⟩⟩
    · simp [Bind.bind, Except.bind, hend]

/-- Tokens to parse, when any module may be asked for. -/
def Setting.ofTokens (ts : List Token) : Setting := { input := .tokens ts }

structure Reads {α : Type} (ts : List Token) (n : Nat) (p : Parser α) (e : Phrase)
    (ks : List TokenKind) : Prop where
  answers : ∀ {s}, (s.kinds ts).length ≤ n →
    (∃ a t, p (.ofTokens ts) s = (.ok a, t) ∧ e.Takes (s.kinds ts) (t.kinds ts)) ∨
      ∃ err t, p (.ofTokens ts) s = (.error (.backtrack err), t)
  stops : ∀ {s r}, (s.kinds ts).length ≤ n → e.Takes (s.kinds ts) r → Clear ks r →
    ∃ a t, p (.ofTokens ts) s = (.ok a, t) ∧ t.kinds ts = r

namespace Reads

variable {α β : Type} {ts : List Token} {n : Nat} {p q : Parser α} {e f : Phrase}
  {ks ls : List TokenKind}

theorem mono (hp : Reads ts n p e ks) (hks : ∀ k ∈ ks, k ∈ ls) : Reads ts n p e ls :=
  ⟨hp.answers, fun hn ht hc => hp.stops hn ht (hc.mono hks)⟩

theorem rule {r : Nonterminal} (hp : Reads ts n p r.production ks) : Reads ts n p (.rule r) ks where
  answers hn := (hp.answers hn).imp_left fun ⟨a, t, h, ht⟩ => ⟨a, t, h, Phrase.takes_rule.2 ht⟩
  stops hn ht := hp.stops hn (Phrase.takes_rule.1 ht)

theorem fails (hp : Reads ts n p e ks) (he : e.passes = false) {s : ParseState}
    (hn : (s.kinds ts).length ≤ n) (hc : Clear e.heads (s.kinds ts)) :
    ∃ err t, p (.ofTokens ts) s = (.error (.backtrack err), t) := by
  rcases hp.answers hn with ⟨a, t, -, ht⟩ | h
  · rcases ht.startsWith with ⟨k, hk, hs⟩ | ⟨hpass, -⟩
    · exact absurd hs (hc k hk)
    · rw [he] at hpass
      cases hpass
  · exact h

theorem pure (a : α) : Reads ts n (Pure.pure a : Parser α) .empty ks where
  answers _ := .inl ⟨a, _, rfl, Phrase.takes_empty.2 rfl⟩
  stops _ ht _ := ⟨a, _, rfl, Phrase.takes_empty.1 ht⟩

theorem token (k : TokenKind) : Reads ts n (Parser.token k.name) (.token k) [] := by
  refine ⟨fun {s} _ => ?_, fun {s r} _ ht _ => ?_⟩
  · cases hx : ts[s.cursor]? with
    | none => exact .inr ⟨_, _, by simp only [Parser.token, Setting.ofTokens, hx]; rfl⟩
    | some x =>
      by_cases hk : x.kind = k.name
      · refine .inl ⟨_, _, Parser.token_of_kind hx hk, ?_⟩
        rw [Phrase.takes_token, ParseState.kinds_eq_cons hx, hk]
      · exact .inr ⟨_, _, by
          simp only [Parser.token, Setting.ofTokens, hx, beq_iff_eq, hk, if_false]
          rfl⟩
  · rw [Phrase.takes_token] at ht
    cases hx : ts[s.cursor]? with
    | none =>
      rw [ParseState.kinds_eq_nil hx] at ht
      cases ht
    | some x =>
      rw [ParseState.kinds_eq_cons hx] at ht
      obtain ⟨hk, hr⟩ := List.cons.inj ht
      exact ⟨_, _, Parser.token_of_kind hx hk, hr⟩

/-- One parser after another. The second works with fewer tokens if the first has used some. -/
theorem bind {g : α → Parser β} (hp : Reads ts n p e ks)
    (hg : ∀ a m, m ≤ n → (e.consumes = true → m < n) → Reads ts m (g a) f ls)
    (hf : f.clears ks ls = true) : Reads ts n (p >>= g) (.seq e f) ls := by
  have hrun : ∀ {s a t}, p (.ofTokens ts) s = (.ok a, t) →
      (p >>= g) (.ofTokens ts) s = g a (.ofTokens ts) t := by
    intro s a t h
    simp only [Bind.bind, h]
  have hnext : ∀ {s t : ParseState} (a : α), (s.kinds ts).length ≤ n →
      e.Takes (s.kinds ts) (t.kinds ts) → Reads ts (t.kinds ts).length (g a) f ls :=
    fun a hn ht => hg a _ (Nat.le_trans ht.length_le hn)
      fun he => Nat.lt_of_lt_of_le (ht.length_lt he) hn
  refine ⟨fun {s} hn => ?_, fun {s r} hn ht hc => ?_⟩
  · rcases hp.answers hn with ⟨a, t, h, ht⟩ | ⟨err, t, h⟩
    · rw [hrun h]
      refine ((hnext a hn ht).answers (Nat.le_refl _)).imp_left ?_
      rintro ⟨b, u, hb, hu⟩
      exact ⟨b, u, hb, Phrase.takes_seq.2 ⟨_, ht, hu⟩⟩
    · exact .inr ⟨err, t, by simp only [Bind.bind, h]⟩
  · obtain ⟨u, hu, hr⟩ := Phrase.takes_seq.1 ht
    obtain ⟨a, t, h, rfl⟩ := hp.stops hn hu (hr.clear hc hf)
    rw [hrun h]
    exact (hnext a hn hu).stops (Nat.le_refl _) hr hc

/-! ## Choice -/

theorem restoring (hp : Reads ts n p e ks) : Reads ts n (Parser.restoring p) e ks := by
  refine ⟨fun {s} hn => ?_, fun {s r} hn ht hc => ?_⟩
  · rcases hp.answers hn with ⟨a, t, h, ht⟩ | ⟨err, t, h⟩
    · exact .inl ⟨a, t, by simp only [Parser.restoring, h], ht⟩
    · exact .inr ⟨err, t.moveTo s.cursor, by simp only [Parser.restoring, h]⟩
  · obtain ⟨a, t, h, ht⟩ := hp.stops hn ht hc
    exact ⟨a, t, by simp only [Parser.restoring, h], ht⟩

/-- Of two parsers the first comes first, so that it must not take what the second would. -/
theorem orElse (hp : Reads ts n p e ks) (hq : Reads ts n q f ks)
    (hef : ∀ {s t u}, e.Takes s t → f.Takes s u → Clear ks u → False) :
    Reads ts n (Parser.orElse p q) (.alt e f) ks := by
  refine ⟨fun {s} hn => ?_, fun {s r} hn ht hc => ?_⟩
  · rcases hp.answers hn with ⟨a, t, h, ht⟩ | ⟨err, t, h⟩
    · exact .inl ⟨a, t, by simp only [Parser.orElse, h], Phrase.takes_alt.2 (.inl ht)⟩
    · rcases hq.answers (s := t.moveTo s.cursor) hn with ⟨a, u, h', hu⟩ | ⟨err', u, h'⟩
      · exact .inl ⟨a, u, by simp only [Parser.orElse, h, h'], Phrase.takes_alt.2 (.inr hu)⟩
      · exact .inr ⟨err.max err', u, by simp only [Parser.orElse, h, h']⟩
  · rcases Phrase.takes_alt.1 ht with ht | ht
    · obtain ⟨a, t, h, ht⟩ := hp.stops hn ht hc
      exact ⟨a, t, by simp only [Parser.orElse, h], ht⟩
    · rcases hp.answers hn with ⟨a, t, -, ht'⟩ | ⟨err, t, h⟩
      · exact (hef ht' ht hc).elim
      · obtain ⟨a, u, h', hu⟩ := hq.stops (s := t.moveTo s.cursor) hn ht hc
        exact ⟨a, u, by simp only [Parser.orElse, h, h'], hu⟩

theorem firstOf_one (hp : Reads ts n p e ks) : Reads ts n (Parser.firstOf [p]) e ks :=
  hp.restoring

theorem optional (hp : Reads ts n p e ks) (he : e.passes = false) :
    Reads ts n (Parser.optional p) (.opt e) (ks ++ e.heads) := by
  refine ⟨fun {s} hn => ?_, fun {s r} hn ht hc => ?_⟩
  · rcases hp.answers hn with ⟨a, t, h, ht⟩ | ⟨err, t, h⟩
    · exact .inl ⟨some a, t, by simp only [Parser.optional, h], Phrase.takes_opt.2 (.inr ht)⟩
    · exact .inl ⟨none, t.moveTo s.cursor, by simp only [Parser.optional, h],
        Phrase.takes_opt.2 (.inl rfl)⟩
  · rcases Phrase.takes_opt.1 ht with rfl | ht
    · obtain ⟨err, t, h⟩ := hp.fails he hn (hc.mono fun _ => List.mem_append_right _)
      exact ⟨none, t.moveTo s.cursor, by simp only [Parser.optional, h], rfl⟩
    · obtain ⟨a, t, h, ht⟩ := hp.stops hn ht (hc.mono fun _ => List.mem_append_left _)
      exact ⟨some a, t, by simp only [Parser.optional, h], ht⟩

/-! ## Repetition -/

theorem upTo_answers (hp : Reads ts n p e ks) {count : Nat} {s : ParseState}
    (hn : (s.kinds ts).length ≤ n) :
    ∃ as t, Parser.upTo p count (.ofTokens ts) s = (.ok as, t) ∧
      (Phrase.many e).Takes (s.kinds ts) (t.kinds ts) := by
  induction count generalizing s with
  | zero => exact ⟨_, s, rfl, Phrase.takes_many.2 (.inl rfl)⟩
  | succ count ih =>
    rcases hp.answers hn with ⟨a, t, h, ht⟩ | ⟨err, t, h⟩
    · by_cases hcur : t.cursor = s.cursor
      · refine ⟨_, t, by simp only [Parser.upTo, h, if_pos hcur]; rfl, ?_⟩
        exact Phrase.takes_many.2 (.inl (ParseState.kinds_congr hcur).symm)
      · obtain ⟨as, u, h', hu⟩ := ih (Nat.le_trans ht.length_le hn)
        exact ⟨_, u, by simp only [Parser.upTo, h, if_neg hcur, h']; rfl,
          Phrase.takes_many.2 (.inr ⟨_, ht, hu⟩)⟩
    · exact ⟨_, t.moveTo s.cursor, by simp only [Parser.upTo, h]; rfl,
        Phrase.takes_many.2 (.inl rfl)⟩

theorem upTo_stops (hp : Reads ts n p e ks) (he : e.consumes = true) (hpass : e.passes = false)
    (hks : e.heads.all (!ks.contains ·) = true) {count : Nat} {s : ParseState} {r : List String}
    (hn : (s.kinds ts).length ≤ n) (hcount : (s.kinds ts).length < count)
    (ht : (Phrase.many e).Takes (s.kinds ts) r) (hc : Clear (ks ++ e.heads) r) :
    ∃ as t, Parser.upTo p count (.ofTokens ts) s = (.ok as, t) ∧ t.kinds ts = r := by
  induction count generalizing s with
  | zero => exact absurd hcount (Nat.not_lt_zero _)
  | succ count ih =>
    rcases Phrase.takes_many.1 ht with rfl | ⟨u, hu, hur⟩
    · obtain ⟨err, t, h⟩ := hp.fails hpass hn (hc.mono fun _ => List.mem_append_right _)
      exact ⟨_, t.moveTo s.cursor, by simp only [Parser.upTo, h]; rfl, rfl⟩
    · -- what comes after one round starts another, or is what comes after all of them
      have hmany : (Phrase.many e).clears ks (ks ++ e.heads) = true := by
        rw [Phrase.clears, Bool.and_eq_true, Bool.or_eq_true]
        refine ⟨hks, .inr (List.all_eq_true.2 fun k hk => ?_)⟩
        rw [List.contains_eq_mem, decide_eq_true_eq]
        exact List.mem_append_left _ hk
      obtain ⟨a, t, h, rfl⟩ := hp.stops hn hu (hur.clear hc hmany)
      have hlt := hu.length_lt he
      have hcur : t.cursor ≠ s.cursor := fun h => by
        rw [ParseState.kinds_congr h] at hlt
        exact Nat.lt_irrefl _ hlt
      obtain ⟨as, v, h', hv⟩ := ih (Nat.le_trans hu.length_le hn) (by omega) hur
      exact ⟨_, v, by simp only [Parser.upTo, h, if_neg hcur, h']; rfl, hv⟩

theorem any (hp : Reads ts n p e ks) (he : e.consumes = true) (hpass : e.passes = false)
    (hks : e.heads.all (!ks.contains ·) = true) :
    Reads ts n (Parser.any p) (.many e) (ks ++ e.heads) := by
  have hrun : ∀ {s as t},
      Parser.upTo p (ts.length - s.cursor + 1) (.ofTokens ts) s = (.ok as, t) →
      Parser.any p (.ofTokens ts) s = (.ok as.1, t) := by
    intro s as t h
    have h' : Parser.repeated p (.ofTokens ts) s = (.ok as, t) := h
    simp only [Parser.any, Bind.bind, h']
    rfl
  refine ⟨fun {s} hn => ?_, fun {s r} hn ht hc => ?_⟩
  · obtain ⟨as, t, h, ht⟩ := hp.upTo_answers hn
    exact .inl ⟨as.1, t, hrun h, ht⟩
  · have hcount : (s.kinds ts).length < ts.length - s.cursor + 1 := by
      rw [ParseState.length_kinds]
      omega
    obtain ⟨as, t, h, hr⟩ := hp.upTo_stops he hpass hks hn hcount ht hc
    exact ⟨as.1, t, hrun h, hr⟩

/-! ## Answers -/

theorem wrapped {p : Parser Parsed} (kind : String) (hp : Reads ts n p e ks) :
    Reads ts n (Parser.wrapped kind p) e ks := by
  refine ⟨fun {s} hn => ?_, fun {s r} hn ht hc => ?_⟩
  · rcases hp.answers hn with ⟨a, t, h, ht⟩ | ⟨err, t, h⟩
    · obtain ⟨m, hm⟩ := Parser.wrapped_ok kind h
      exact .inl ⟨m, t, hm, ht⟩
    · exact .inr ⟨err, t, by simp only [Parser.wrapped, h]⟩
  · obtain ⟨a, t, h, ht⟩ := hp.stops hn ht hc
    obtain ⟨m, hm⟩ := Parser.wrapped_ok kind h
    exact ⟨m, t, hm, ht⟩

theorem labelled (label : String) (hp : Reads ts n p e ks) :
    Reads ts n (Parser.labelled label p) e ks := by
  refine ⟨fun {s} hn => ?_, fun {s r} hn ht hc => ?_⟩
  · rcases hp.answers hn with ⟨a, t, h, ht⟩ | ⟨err, t, h⟩
    · exact .inl ⟨a, t, by simp only [Parser.labelled, h], ht⟩
    · exact .inr ⟨_, _, by simp only [Parser.labelled, h]; rfl⟩
  · obtain ⟨a, t, h, ht⟩ := hp.stops hn ht hc
    exact ⟨a, t, by simp only [Parser.labelled, h], ht⟩

/-! ## Scripts -/

variable {apply : String → Parser Node} {atoms : List Atom}

theorem done (result : Parsed) : Reads ts n ((Script.done result).run apply) .empty ks :=
  pure result

theorem one {next : Node → Script}
    (hp : Reads ts n (Parser.firstOf (Atom.attempts apply atoms)) e ks)
    (hnext : ∀ a m, m ≤ n → (e.consumes = true → m < n) → Reads ts m ((next a).run apply) f ls)
    (hf : f.clears ks ls = true) :
    Reads ts n ((Script.one atoms next).run apply) (.seq e f) ls :=
  hp.bind hnext hf

theorem opt {next : Option Node → Script}
    (hp : Reads ts n (Parser.firstOf (Atom.attempts apply atoms)) e ks) (he : e.passes = false)
    (hnext : ∀ a m, m ≤ n → Reads ts m ((next a).run apply) f ls)
    (hf : f.clears (ks ++ e.heads) ls = true) :
    Reads ts n ((Script.opt atoms next).run apply) (.seq (.opt e) f) ls :=
  (hp.optional he).bind (fun a m hm _ => hnext a m hm) hf

theorem many {next : List Node → Script}
    (hp : Reads ts n (Parser.firstOf (Atom.attempts apply atoms)) e ks) (he : e.consumes = true)
    (hpass : e.passes = false) (hks : e.heads.all (!ks.contains ·) = true)
    (hnext : ∀ a m, m ≤ n → Reads ts m ((next a).run apply) f ls)
    (hf : f.clears (ks ++ e.heads) ls = true) :
    Reads ts n ((Script.any atoms next).run apply) (.seq (.many e) f) ls :=
  (hp.any he hpass hks).bind (fun a m hm _ => hnext a m hm) hf

/-- Once the first part of something optional is there, so is the second. What the first part starts
with goes on with the second, too. -/
theorem optThen {next : Option Node → Script}
    (hp : Reads ts n (Parser.firstOf (Atom.attempts apply atoms)) e ks) (he : e.passes = false)
    (hnone : ∀ m, Reads ts m ((next none).run apply) .empty [])
    (hsome : ∀ a m, m ≤ n → (e.consumes = true → m < n) →
      Reads ts m ((next (some a)).run apply) f ls) (hf : f.clears ks ls = true)
    (hls : ∀ k ∈ e.heads, k ∈ ls) :
    Reads ts n ((Script.opt atoms next).run apply) (.seq (.opt (.seq e f)) .empty) ls := by
  show Reads ts n (Parser.optional (Parser.firstOf (Atom.attempts apply atoms)) >>= fun a =>
    (next a).run apply) _ ls
  have htakes : ∀ {s r}, (Phrase.seq (.opt (.seq e f)) .empty).Takes s r ↔
      s = r ∨ (Phrase.seq e f).Takes s r := by
    intro s r
    simp only [Phrase.takes_seq (e := .opt _), Phrase.takes_opt, Phrase.takes_empty,
      exists_eq_right]
  have hgo : Reads ts n (Parser.firstOf (Atom.attempts apply atoms) >>= fun a =>
      (next (some a)).run apply) (.seq e f) ls := hp.bind hsome hf
  refine ⟨fun {s} hn => ?_, fun {s r} hn ht hc => ?_⟩
  · rcases hp.answers hn with ⟨a, t, h, -⟩ | ⟨err, t, h⟩
    · have hrun := hgo.answers hn
      simp only [Bind.bind, h] at hrun
      simp only [Bind.bind, Parser.optional, h]
      exact hrun.imp_left fun ⟨b, u, hb, hu⟩ => ⟨b, u, hb, htakes.2 (.inr hu)⟩
    · simp only [Bind.bind, Parser.optional, h]
      refine ((hnone _).answers (s := t.moveTo s.cursor) (Nat.le_refl _)).imp_left ?_
      exact fun ⟨b, u, hb, hu⟩ => ⟨b, u, hb, htakes.2 (.inl (Phrase.takes_empty.1 hu))⟩
  · rcases htakes.1 ht with rfl | ht
    · obtain ⟨err, t, h⟩ := hp.fails he hn (hc.mono hls)
      simp only [Bind.bind, Parser.optional, h]
      exact (hnone _).stops (s := t.moveTo s.cursor) (Nat.le_refl _) (Phrase.takes_empty.2 rfl)
        fun _ hk => absurd hk List.not_mem_nil
    · obtain ⟨u, hu, hr⟩ := Phrase.takes_seq.1 ht
      obtain ⟨a, t, h, -⟩ := hp.stops hn hu (hr.clear hc hf)
      have hrun := hgo.stops hn ht hc
      simp only [Bind.bind, h] at hrun
      simp only [Bind.bind, Parser.optional, h]
      exact hrun

end Reads

end JayFrontEnd
