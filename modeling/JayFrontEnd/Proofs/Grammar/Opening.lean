import JayFrontEnd.Proofs.Grammar.Phrase

/-!
# Beginnings of phrases

`e.Opens w` says that the kinds `w` can be completed to something that `e` takes, whatever comes
after it. Every phrase can be completed from nothing, what a phrase has taken can be completed, and
a beginning of the second of two phrases, after anything that the first has taken, is a beginning of
both.
-/

namespace JayFrontEnd

theorem head?_append_congr {u r s : List String} (h : r.head? = s.head?) :
    (u ++ r).head? = (u ++ s).head? := by
  cases u with
  | nil => exact h
  | cons k u => rfl

theorem Derives.of_head?_eq {e : Phrase} {w rest rest' : List String} (h : Derives e w rest)
    (hr : rest'.head? = rest.head?) : Derives e w rest' := by
  induction h generalizing rest' with
  | empty => exact .empty
  | token => exact .token
  | rule _ ih => exact .rule (ih hr)
  | seq _ _ ihe ihf => exact .seq (ihe (head?_append_congr hr)) (ihf hr)
  | left _ ih => exact .left (ih hr)
  | right _ ih => exact .right (ih hr)
  | absent => exact .absent
  | present _ ih => exact .present (ih hr)
  | done => exact .done
  | more _ _ ihe ihm => exact .more (ihe (head?_append_congr hr)) (ihm hr)
  | newline => exact .newline
  | atBrace =>
    cases rest' with
    | nil => cases hr
    | cons k rest' => cases hr; exact .atBrace

namespace Phrase

/-- The kinds can be completed to something that the phrase takes. -/
def Opens (e : Phrase) (w : List String) : Prop := ∃ v, ∀ rest, Derives e (w ++ v) rest

variable {e f : Phrase} {v w rest : List String}

/-- A beginning begins with one of the kinds that the phrase begins with. -/
theorem Opens.startsWith {k : String} (h : e.Opens (k :: w)) : StartsWith e.heads (k :: w) := by
  obtain ⟨v, hv⟩ := h
  rcases (hv []).startsWith with hstarts | ⟨-, hnil⟩
  · exact hstarts
  · cases hnil

theorem Opens.rule {r : Nonterminal} (h : r.production.Opens w) : (rule r).Opens w := by
  obtain ⟨v, hv⟩ := h
  exact ⟨v, fun rest => .rule (hv rest)⟩

theorem Opens.left (h : e.Opens w) : (alt e f).Opens w := by
  obtain ⟨v, hv⟩ := h
  exact ⟨v, fun rest => .left (hv rest)⟩

theorem Opens.right (h : f.Opens w) : (alt e f).Opens w := by
  obtain ⟨v, hv⟩ := h
  exact ⟨v, fun rest => .right (hv rest)⟩

theorem Opens.opt (h : e.Opens w) : (opt e).Opens w := by
  obtain ⟨v, hv⟩ := h
  exact ⟨v, fun rest => .present (hv rest)⟩

theorem Opens.append (he : e.Opens w) (hf : f.Opens []) : (seq e f).Opens w := by
  obtain ⟨u, hu⟩ := he
  obtain ⟨v, hv⟩ := hf
  refine ⟨u ++ v, fun rest => ?_⟩
  rw [← List.append_assoc]
  exact .seq (hu _) (hv rest)

theorem Opens.many (h : e.Opens w) : (many e).Opens w := by
  obtain ⟨v, hv⟩ := h
  refine ⟨v, fun rest => ?_⟩
  rw [← List.append_nil (w ++ v)]
  exact .more (hv ([] ++ rest)) .done

end Phrase

/-! ## Completing from nothing -/

namespace Nonterminal

/-- How deep names nest in a shortest text of the phrase behind the name. -/
def height : Nonterminal → Nat
  | callArgs | parenthesis | assignment => 3
  | expression => 2
  | declStatement | statement | functionDecl | params | product => 1
  | _ => 0

end Nonterminal

/-- Whether some text of the phrase has no names of height `n` or more. -/
def Phrase.flat (n : Nat) : Phrase → Bool
  | empty | token _ | opt _ | many _ | lineEnd => true
  | rule r => r.height < n
  | seq e f => e.flat n && f.flat n
  | alt e f => e.flat n || f.flat n

theorem Nonterminal.flat_production (r : Nonterminal) : r.production.flat r.height = true := by
  cases r <;> decide

theorem Phrase.opens_of_flat {n : Nat} (hn : ∀ r : Nonterminal, r.height < n → (rule r).Opens [])
    {e : Phrase} (he : e.flat n = true) : e.Opens [] := by
  induction e with
  | empty => exact ⟨[], fun _ => .empty⟩
  | token k => exact ⟨[k.name], fun _ => .token⟩
  | rule r => exact hn r (of_decide_eq_true he)
  | seq e f ihe ihf =>
    have := Bool.and_eq_true_iff.1 he
    exact (ihe this.1).append (ihf this.2)
  | alt e f ihe ihf =>
    rcases Bool.or_eq_true_iff.1 he with he | hf
    · exact (ihe he).left
    · exact (ihf hf).right
  | opt e => exact ⟨[], fun _ => .absent⟩
  | many e => exact ⟨[], fun _ => .done⟩
  | lineEnd => exact ⟨[TokenKind.newline.name], fun _ => .newline⟩

theorem Nonterminal.opens_nil (r : Nonterminal) : (Phrase.rule r).Opens [] := by
  generalize hn : r.height = n
  induction n using Nat.strongRecOn generalizing r with
  | ind n ih =>
    refine (Phrase.opens_of_flat (fun q hq => ih q.height hq q rfl) ?_).rule
    rw [← hn]
    exact r.flat_production

namespace Phrase

variable {e f : Phrase} {v w rest : List String}

theorem opens_nil (e : Phrase) : e.Opens [] := by
  refine opens_of_flat (n := 4) (fun r _ => r.opens_nil) ?_
  induction e with
  | rule r => cases r <;> rfl
  | seq e f ihe ihf => rw [flat, ihe, ihf]; rfl
  | alt e f ihe ihf => rw [flat, ihe, ihf]; rfl
  | _ => rfl

/-! ## After what a phrase has taken -/

theorem Opens.seq (he : Derives e v (w ++ rest)) (hv : e.Opens v) (hf : f.Opens w) :
    (seq e f).Opens (v ++ w) := by
  obtain ⟨u, hu⟩ := hf
  cases w with
  | nil => rw [List.append_nil]; exact hv.append (opens_nil f)
  | cons k w =>
    refine ⟨u, fun rest' => ?_⟩
    rw [List.append_assoc]
    exact .seq (he.of_head?_eq rfl) (hu rest')

theorem Opens.more (he : Derives e v (w ++ rest)) (hv : e.Opens v) (hm : (Phrase.many e).Opens w) :
    (Phrase.many e).Opens (v ++ w) := by
  obtain ⟨u, hu⟩ := hm
  cases w with
  | nil => rw [List.append_nil]; exact hv.many
  | cons k w =>
    refine ⟨u, fun rest' => ?_⟩
    rw [List.append_assoc]
    exact .more (he.of_head?_eq rfl) (hu rest')

theorem opens_of_derives (h : Derives e w rest) : e.Opens w := by
  induction h with
  | empty => exact opens_nil _
  | token => exact ⟨[], fun _ => .token⟩
  | rule _ ih => exact ih.rule
  | seq he _ ihe ihf => exact .seq he ihe ihf
  | left _ ih => exact ih.left
  | right _ ih => exact ih.right
  | absent => exact opens_nil _
  | present _ ih => exact ih.opt
  | done => exact opens_nil _
  | more he _ ihe ihm => exact .more he ihe ihm
  | newline => exact ⟨[], fun _ => .newline⟩
  | atBrace => exact opens_nil _

end Phrase

end JayFrontEnd
