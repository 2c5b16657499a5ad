import JayFrontEnd.Pattern.Parser

/-!
# Reading a pattern in a group

A pattern that can be read by itself is read in the same way in front of a parenthesis that closes a
group around it: a reader with one more group open around all others does the same, and has come to
the parenthesis when the reader without it has come to the end.
-/

namespace JayFrontEnd.Pattern

variable {cs rest : List Char}

/-! ## Parts of a pattern -/

theorem readMember_plain {c : Char} (hc : c ≠ '\\') (cs : List Char) :
    readMember (c :: cs) = some (.char c, cs) := by
  simp [readMember, hc]

theorem readMember_append {m : ClassMember} (h : readMember cs = some (m, rest))
    (more : List Char) : readMember (cs ++ more) = some (m, rest ++ more) := by
  cases cs with
  | nil => cases h
  | cons c cs =>
    by_cases hc : c = '\\'
    · subst hc
      cases cs with
      | nil => cases h
      | cons d cs =>
        simp only [List.cons_append, readMember] at h ⊢
        split at h
        · cases h
          rfl
        · obtain ⟨e, he, hm⟩ := Option.map_eq_some_iff.1 h
          cases hm
          rw [he]
          rfl
    · rw [readMember_plain hc] at h
      cases h
      exact readMember_plain hc _

/-- Whether an item is a range shows in the character after it. -/
theorem readItem_append {k : CharSet} (h : readItem cs = some (k, rest)) (hrest : rest ≠ [])
    (more : List Char) : readItem (cs ++ more) = some (k, rest ++ more) := by
  obtain ⟨⟨m, after⟩, hm, hitem⟩ := Option.bind_eq_some_iff.1 h
  rw [readItem, readMember_append hm]
  simp only [Option.bind_eq_bind, Option.bind_some]
  dsimp only at hitem
  split at hitem
  · cases hitem
    rfl
  · cases hitem
    rfl
  · next after hbracket hhyphen =>
    obtain ⟨⟨last, left⟩, hlast, hrange⟩ := Option.bind_eq_some_iff.1 hitem
    cases after with
    | nil => cases hlast
    | cons c cs =>
      have hc : c ≠ ']' := fun hc => hbracket cs (by rw [hc])
      have hc' : c ≠ '-' := fun hc => hhyphen cs (by rw [hc])
      have happ : readMember (c :: (cs ++ more)) = some (last, left ++ more) :=
        readMember_append hlast more
      dsimp only at hrange
      split at hrange
      · split at hrange
        · next hle =>
          cases hrange
          simp [hc, hc', happ, hle]
        · cases hrange
      · cases hrange
  · next hnoRange =>
    cases hitem
    obtain ⟨c, rest, rfl⟩ := List.exists_cons_of_ne_nil hrest
    have hc : c ≠ '-' := by
      rintro rfl
      exact hnoRange rest rfl
    simp [hc]

theorem combinesClasses_append (cs : List Char) :
    combinesClasses (cs ++ [')']) = combinesClasses cs := by
  match cs with
  | [] => rfl
  | [c] =>
    unfold combinesClasses
    split <;> simp_all
  | c :: d :: cs =>
    simp only [List.cons_append]
    unfold combinesClasses
    split <;> simp_all

theorem readItems_item {c : Char} (hc : c ≠ ']') (n : Nat) (cs : List Char) :
    readItems (n + 1) (c :: cs) =
      if combinesClasses (c :: cs) then none
      else (readItem (c :: cs)).bind fun i =>
        (readItems n i.2).map fun is => (i.1 :: is.1, is.2) := by
  rw [readItems]
  · split
    · rfl
    · cases readItem (c :: cs) with
      | none => rfl
      | some i => rcases h : readItems n i.2 with _ | is <;> simp [h]
  · simp [hc]

theorem readItems_append {m n : Nat} {ks : List CharSet} (hmn : m ≤ n)
    (h : readItems m cs = some (ks, rest)) :
    readItems n (cs ++ [')']) = some (ks, rest ++ [')']) := by
  induction m generalizing n cs ks with
  | zero => cases h
  | succ m ih =>
    obtain ⟨n, rfl⟩ : ∃ k, n = k + 1 := ⟨n - 1, by omega⟩
    cases cs with
    | nil => cases h
    | cons c cs =>
      by_cases hc : c = ']'
      · subst hc
        cases h
        rfl
      · rw [readItems_item hc] at h
        rw [List.cons_append, readItems_item hc, ← List.cons_append, combinesClasses_append]
        split at h
        · cases h
        · next hplain =>
          obtain ⟨⟨k, after⟩, hk, h⟩ := Option.bind_eq_some_iff.1 h
          obtain ⟨⟨ks, after'⟩, hks, h⟩ := Option.map_eq_some_iff.1 h
          cases h
          have hafter : after ≠ [] := by
            rintro rfl
            cases m <;> cases hks
          rw [if_neg hplain, readItem_append hk hafter, Option.bind_some, ih (by omega) hks]
          rfl

theorem readHyphens_append (cs : List Char) : readLeading.readHyphens (cs ++ [')']) =
    ((readLeading.readHyphens cs).1, (readLeading.readHyphens cs).2 ++ [')']) := by
  induction cs with
  | nil => rfl
  | cons c cs ih =>
    by_cases hc : c = '-'
    · subst hc
      simp [readLeading.readHyphens, ih]
    · simp [readLeading.readHyphens, hc]

theorem readLeading_append (cs : List Char) :
    readLeading (cs ++ [')']) = ((readLeading cs).1, (readLeading cs).2 ++ [')']) := by
  cases cs with
  | nil => rfl
  | cons c cs =>
    by_cases hc : c = '-'
    · subst hc
      simp [readLeading, readHyphens_append]
    · by_cases hc' : c = ']'
      · subst hc'
        rfl
      · simp [readLeading, hc, hc']

/-- A class after its opening bracket and its sign of negation. -/
def readBody (negated ignoreCase : Bool) (cs : List Char) : Option (CharSet × List Char) :=
  (readItems ((readLeading cs).2.length + 1) (readLeading cs).2).map fun items =>
    let k := CharSet.unions ((readLeading cs).1 ++ items.1)
    let k := if ignoreCase then k.foldCase else k
    (if negated then k.complement else k, items.2)

theorem readBody_append {negated ignoreCase : Bool} {k : CharSet}
    (h : readBody negated ignoreCase cs = some (k, rest)) :
    readBody negated ignoreCase (cs ++ [')']) = some (k, rest ++ [')']) := by
  obtain ⟨⟨items, after⟩, hitems, hk⟩ := Option.map_eq_some_iff.1 h
  have hmore := readItems_append (n := ((readLeading cs).2 ++ [')']).length + 1) (by simp) hitems
  cases hk
  rw [readBody, readLeading_append, hmore]
  rfl

theorem readClass_caret (cs : List Char) (ignoreCase : Bool) :
    readClass ('^' :: cs) ignoreCase = readBody true ignoreCase cs := by
  rcases h : readItems ((readLeading cs).2.length + 1) (readLeading cs).2 with _ | items <;>
    simp [readClass, readBody, h]

theorem readClass_plain {c : Char} (hc : c ≠ '^') (cs : List Char) (ignoreCase : Bool) :
    readClass (c :: cs) ignoreCase = readBody false ignoreCase (c :: cs) := by
  rcases h : readItems ((readLeading (c :: cs)).2.length + 1) (readLeading (c :: cs)).2 with
    _ | items <;> simp [readClass, readBody, hc, h]

theorem readClass_append {ignoreCase : Bool} {k : CharSet}
    (h : readClass cs ignoreCase = some (k, rest)) :
    readClass (cs ++ [')']) ignoreCase = some (k, rest ++ [')']) := by
  cases cs with
  | nil => cases h
  | cons c cs =>
    by_cases hc : c = '^'
    · subst hc
      rw [readClass_caret] at h
      rw [List.cons_append, readClass_caret, readBody_append h]
    · rw [readClass_plain hc] at h
      rw [List.cons_append, readClass_plain hc, ← List.cons_append, readBody_append h]

theorem readFlags_append {seen : List Char} {flags flags' : Flags} {opens : Bool}
    (h : readFlags seen flags cs = some (flags', opens, rest)) (more : List Char) :
    readFlags seen flags (cs ++ more) = some (flags', opens, rest ++ more) := by
  fun_induction readFlags seen flags cs <;> simp_all [readFlags]

theorem dropWhile_append_paren {p : Char → Bool} (hp : p ')' = false) (cs : List Char) :
    (cs ++ [')']).dropWhile p = cs.dropWhile p ++ [')'] := by
  induction cs with
  | nil => simp [hp]
  | cons c cs ih => rcases h : p c <;> simp [h, ih]

theorem takeWhile_append_paren {p : Char → Bool} (hp : p ')' = false) (cs : List Char) :
    (cs ++ [')']).takeWhile p = cs.takeWhile p := by
  induction cs with
  | nil => simp [hp]
  | cons c cs ih => rcases h : p c <;> simp [h, ih]

theorem readNumber_append {n : Nat} (h : readNumber cs = some (n, rest)) :
    readNumber (cs ++ [')']) = some (n, rest ++ [')']) := by
  have hspace : Text.isWhiteSpace ')' = false := by decide
  have hdigit : Text.isAsciiDigit ')' = false := by decide
  simp only [readNumber, dropWhile_append_paren hspace, dropWhile_append_paren hdigit,
    takeWhile_append_paren hdigit] at h ⊢
  split at h
  · cases h
  · next hn =>
    cases h
    rw [if_neg hn]

theorem readBounds_append {least : Nat} {most : Option Nat}
    (h : readBounds cs = some (least, most, rest)) :
    readBounds (cs ++ [')']) = some (least, most, rest ++ [')']) := by
  obtain ⟨⟨n, after⟩, hn, hbounds⟩ := Option.bind_eq_some_iff.1 h
  rw [readBounds, readNumber_append hn]
  simp only [Option.bind_eq_bind, Option.bind_some]
  dsimp only at hbounds
  split at hbounds
  · cases hbounds
    rfl
  · cases hbounds
    rfl
  · next after hclosed =>
    obtain ⟨⟨m, after'⟩, hm, hmost⟩ := Option.bind_eq_some_iff.1 hbounds
    dsimp only at hmost
    split at hmost
    · split at hmost
      · next hle =>
        cases hmost
        cases after with
        | nil => cases hm
        | cons c cs =>
          have hc : c ≠ '\x7d' := fun hc => hclosed cs (by rw [hc])
          have happ : readNumber (c :: (cs ++ [')'])) = _ := readNumber_append hm
          simp [hc, happ, hle]
      · cases hmost
    · cases hmost
  · cases hbounds

theorem readGreed_append (cs : List Char) :
    readGreed (cs ++ [')']) = ((readGreed cs).1, (readGreed cs).2 ++ [')']) := by
  cases cs with
  | nil => rfl
  | cons c cs =>
    by_cases hc : c = '?'
    · subst hc
      rfl
    · simp [readGreed, hc]

/-! ## Readers in a group -/

namespace Reader

variable {r r' : Reader}

/-- The reader with one more group, which is open around all others. -/
def within (r : Reader) (g : OpenGroup) : Reader := { r with outer := r.outer ++ [g] }

theorem quantify_within {least : Nat} {most : Option Nat} {greedy : Bool}
    (h : r.quantify least most greedy = some r') (g : OpenGroup) :
    (r.within g).quantify least most greedy = some (r'.within g) := by
  unfold quantify at h ⊢
  split at h
  · next p items hrepeatable hitems =>
    cases h
    simp [within, hrepeatable, hitems]
  · cases h

theorem closeGroup_within (h : r.closeGroup = some r') (g : OpenGroup) :
    (r.within g).closeGroup = some (r'.within g) := by
  unfold closeGroup at h ⊢
  split at h
  · cases h
  · next inner outer houter =>
    cases h
    simp only [within, houter, List.cons_append]
    rfl

end Reader

section Step

variable {m n : Nat} {r r' : Reader} {g : OpenGroup}
  (hnext : ∀ {cs : List Char} {r : Reader}, readAll m cs r = some r' →
    readAll n (cs ++ [')']) (r.within g) = (r'.within g).closeGroup)

include hnext

/-- A repetition sign, and what comes after it. -/
theorem readAll_quantify {least : Nat} {most : Option Nat}
    (h : ((r.quantify least most (readGreed cs).1).bind (readAll m (readGreed cs).2)) = some r') :
    ((r.within g).quantify least most (readGreed (cs ++ [')'])).1).bind
      (readAll n (readGreed (cs ++ [')'])).2) = (r'.within g).closeGroup := by
  obtain ⟨r₁, hr, h⟩ := Option.bind_eq_some_iff.1 h
  rw [readGreed_append, Reader.quantify_within hr, Option.bind_some, hnext h]

theorem readAll_sign {c : Char} (h : readAll (m + 1) (c :: cs) r = some r') :
    readAll (n + 1) (c :: (cs ++ [')'])) (r.within g) = (r'.within g).closeGroup := by
  unfold readAll at h ⊢
  dsimp only at h
  split at h
  case h_1 =>
    split at h
    · next cs =>
      obtain ⟨⟨flags, opens, rest⟩, hflags, h⟩ := Option.bind_eq_some_iff.1 h
      have hmore : readFlags [] (r.within g).flags (cs ++ [')']) = _ :=
        readFlags_append hflags [')']
      simp only [List.cons_append, hmore]
      cases opens with
      | true => exact hnext h
      | false => exact hnext h
    · next hcaptures =>
      split
      · next tail heq =>
        cases cs with
        | nil => cases heq
        | cons d cs =>
          cases heq
          exact absurd rfl (hcaptures cs)
      · exact hnext h
  case h_2 =>
    obtain ⟨r₁, hr, h⟩ := Option.bind_eq_some_iff.1 h
    simp only [Reader.closeGroup_within hr]
    exact hnext h
  case h_4 | h_5 | h_6 => exact readAll_quantify hnext h
  case h_7 =>
    obtain ⟨⟨least, most, rest⟩, hbounds, h⟩ := Option.bind_eq_some_iff.1 h
    simp only [readBounds_append hbounds]
    exact readAll_quantify hnext h
  case h_8 =>
    obtain ⟨⟨k, rest⟩, hclass, h⟩ := Option.bind_eq_some_iff.1 h
    have hmore : readClass (cs ++ [')']) (r.within g).flags.ignoreCase = _ :=
      readClass_append hclass
    simp only [hmore]
    exact hnext h
  case h_12 =>
    cases cs with
    | nil => cases h
    | cons d cs =>
      simp only [List.cons_append, List.head?_cons, List.tail_cons, Option.map_some,
        Option.bind_eq_bind, Option.bind_some] at h ⊢
      split at h
      case h_4 => cases h
      all_goals exact hnext h
  -- A new branch, a dot, an assertion or a character that stands for itself.
  all_goals exact hnext h

end Step

theorem readAll_paren (n : Nat) (r : Reader) : readAll (n + 1) [')'] r = r.closeGroup := by
  cases h : r.closeGroup <;> simp [readAll, h]

/-- A reader that comes to the end of a pattern comes to the parenthesis after it. -/
theorem readAll_within {m n : Nat} {r r' : Reader} (hmn : m ≤ n) (h : readAll m cs r = some r')
    (g : OpenGroup) : readAll (n + 1) (cs ++ [')']) (r.within g) = (r'.within g).closeGroup := by
  induction m generalizing n cs r with
  | zero =>
    cases cs with
    | nil =>
      cases h
      exact readAll_paren n _
    | cons c cs => cases h
  | succ m ih =>
    obtain ⟨n, rfl⟩ : ∃ k, n = k + 1 := ⟨n - 1, by omega⟩
    cases cs with
    | nil =>
      cases h
      exact readAll_paren _ _
    | cons c cs => exact readAll_sign (fun h => ih (by omega) h) h

/-- A pattern that can be read by itself can be read in a group that an assertion stands before. -/
theorem parse?_grouped {source : String} {p : Pattern} (h : parse? source = some p) :
    parse? s!"^(?:{source})" = some (ofAlt [ofSeq [check .textStart, p]]) := by
  obtain ⟨r, hread, hfinish⟩ := Option.bind_eq_some_iff.1 h
  have hsource : (s!"^(?:{source})").toList =
      '^' :: '(' :: '?' :: ':' :: (source.toList ++ [')']) := by
    simp [toString]
  unfold Reader.finish at hfinish
  split at hfinish
  · next houter =>
    cases hfinish
    let g : OpenGroup := ⟨none, {}, [], [check .textStart]⟩
    have hgroup : readAll (s!"^(?:{source})").toList.length (s!"^(?:{source})").toList {} =
        (r.within g).closeGroup := by
      rw [hsource]
      simp only [List.length_cons, List.length_append, List.length_nil]
      exact readAll_within (Nat.le_add_right _ 2) hread g
    have hclose : (r.within g).closeGroup = some
        { captures := r.captures, items := [r.choice, check .textStart], repeatable := true } := by
      simp [Reader.closeGroup, Reader.within, List.isEmpty_iff.1 houter, g]
      rfl
    rw [parse?]
    simp only [hgroup, hclose]
    rfl
  · cases hfinish

end JayFrontEnd.Pattern
