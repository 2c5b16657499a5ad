import JayFrontEnd.Pattern.Search
import JayFrontEnd.Proofs.Pattern.Reaches

/-!
# Where matches lie

A pattern matches along a text: the place it matches up to comes after the place where it was tried,
with the text between them taken from what followed. So a match starts and stops at places of the
text it was found in. What groups have taken is not lost on the way: a pattern none of whose ways
goes past a group gives a match in which that group took part.
-/

namespace JayFrontEnd

/-- The second place comes after the first, with the text between them. -/
structure Place.Leads (s : Place) (cs : List Char) (t : Place) : Prop where
  rest : s.rest = cs ++ t.rest
  offset : t.offset = s.offset + Text.byteLength cs

namespace Place.Leads

variable {s t u : Place} {as bs : List Char}

theorem refl (s : Place) : s.Leads [] s := ⟨rfl, rfl⟩

theorem trans (h : s.Leads as t) (h' : t.Leads bs u) : s.Leads (as ++ bs) u where
  rest := by rw [h.rest, h'.rest, List.append_assoc]
  offset := by rw [h'.offset, h.offset, Text.byteLength_append, Nat.add_assoc]

theorem after {c : Char} {rest : List Char} (h : s.rest = c :: rest) :
    s.Leads [c] (s.after c rest) :=
  ⟨h, by simp [Place.after]⟩

theorem afterText? {cs : List Char} (h : s.afterText? cs = some t) : s.Leads cs t := by
  induction cs generalizing s with
  | nil => cases h; exact refl _
  | cons c cs ih =>
    unfold Place.afterText? at h
    split at h
    · cases h
    · next x rest hrest =>
      split at h
      · next hx =>
        subst hx
        exact (after hrest).trans (ih h)
      · cases h

theorem upTo (h : s.Leads as t) : s.upTo t = as := by
  obtain ⟨hrest, hoffset⟩ := h
  unfold Place.upTo
  rw [hrest, hoffset, Nat.add_sub_cancel_left, Text.charsWithin_append]

end Place.Leads

/-- The match starts at a place of the text and stops at that place or a later one. -/
def Match.LiesIn (m : Match) (text : List Char) : Prop :=
  ∃ before taken, (Place.start text).Leads before m.start ∧ m.start.Leads taken m.stop

namespace Place

variable {s t : Place} {as bs rest : List Char}

theorem afterText?_append :
    s.afterText? (as ++ bs) = (s.afterText? as).bind (·.afterText? bs) := by
  induction as generalizing s with
  | nil => rfl
  | cons c as ih =>
    rw [List.cons_append, afterText?, afterText?]
    split
    · rfl
    · split
      · exact ih
      · rfl

theorem exists_of_afterText?_append (as : List Char) (h : s.afterText? (as ++ bs) = some t) :
    ∃ u, s.afterText? as = some u ∧ u.afterText? bs = some t :=
  Option.bind_eq_some_iff.1 (afterText?_append ▸ h)

theorem afterText?_trans {u : Place} (h : s.afterText? as = some u)
    (h' : u.afterText? bs = some t) : s.afterText? (as ++ bs) = some t := by
  rw [afterText?_append, h]
  exact h'

/-- The last character that has been gone past stands before the place. -/
theorem before_of_afterText? (as : List Char) {c : Char} (h : s.afterText? (as ++ [c]) = some t) :
    t.before = some c := by
  obtain ⟨u, -, h⟩ := exists_of_afterText?_append as h
  unfold afterText? at h
  split at h
  · cases h
  · split at h
    · next hx =>
      cases h
      exact congrArg some hx
    · cases h

theorem exists_afterText? (h : s.rest = as ++ rest) :
    ∃ t, s.afterText? as = some t ∧ t.rest = rest := by
  induction as generalizing s with
  | nil => exact ⟨s, rfl, h⟩
  | cons c as ih =>
    obtain ⟨t, ht, hrest⟩ := ih (s := s.after c (as ++ rest)) rfl
    refine ⟨t, ?_, hrest⟩
    rw [afterText?, h, List.cons_append]
    dsimp only
    rw [if_pos rfl, ht]

end Place

namespace Pattern

variable {β : Type} {s t : Place} {gs hs : Groups} {x y : Place × Groups} {p : Pattern}

/-- A match goes past some of the text, and has what groups have taken since. -/
theorem Matches.afterText? (h : p.Matches x y) :
    ∃ cs, x.1.afterText? cs = some y.1 ∧ x.2 <:+ y.2 := by
  induction p generalizing x y with
  | empty =>
    cases h
    exact ⟨[], rfl, List.suffix_refl _⟩
  | text cs => exact ⟨cs, h.1, h.2 ▸ List.suffix_refl _⟩
  | one k =>
    obtain ⟨c, -, hc, hgs⟩ := h
    exact ⟨[c], hc, hgs ▸ List.suffix_refl _⟩
  | check a =>
    obtain ⟨-, rfl⟩ := h
    exact ⟨[], rfl, List.suffix_refl _⟩
  | group i p ih =>
    obtain ⟨gs, h, hgs⟩ := h
    obtain ⟨cs, hcs, hsuffix⟩ := ih h
    exact ⟨cs, hcs, hgs ▸ hsuffix.trans (List.suffix_cons ..)⟩
  | seq p q ihp ihq =>
    obtain ⟨z, hxz, hzy⟩ := h
    obtain ⟨as, has, hxs⟩ := ihp hxz
    obtain ⟨bs, hbs, hzs⟩ := ihq hzy
    exact ⟨as ++ bs, Place.afterText?_trans has hbs, hxs.trans hzs⟩
  | alt p q ihp ihq =>
    rcases h with h | h
    · exact ihp h
    · exact ihq h
  | repeated least most greedy p ih =>
    obtain ⟨count, -, -, h⟩ := h
    induction count generalizing x with
    | zero =>
      cases h
      exact ⟨[], rfl, List.suffix_refl _⟩
    | succ count ihc =>
      obtain ⟨z, hxz, hzy⟩ := h
      obtain ⟨as, has, hxs⟩ := ih hxz
      obtain ⟨bs, hbs, hzs⟩ := ihc hzy
      exact ⟨as ++ bs, Place.afterText?_trans has hbs, hxs.trans hzs⟩

theorem Matches.leads (h : p.Matches x y) : ∃ cs, x.1.Leads cs y.1 ∧ x.2 <:+ y.2 := by
  obtain ⟨cs, hcs, hsuffix⟩ := h.afterText?
  exact ⟨cs, .afterText? hcs, hsuffix⟩

/-! ## Groups -/

/-- Whether every match goes through the group. -/
def captures (i : Nat) : Pattern → Bool
  | group j p => j == i || p.captures i
  | seq p q => p.captures i || q.captures i
  | alt p q => p.captures i && q.captures i
  | _ => false

theorem hasGroup_of_captures {p : Pattern} {i : Nat} (hp : p.captures i = true) :
    p.hasGroup = true := by
  induction p with
  | group j p _ => rfl
  | seq p q ihp ihq =>
    rw [hasGroup, Bool.or_eq_true]
    exact (Bool.or_eq_true_iff.1 hp).imp ihp ihq
  | alt p q ihp _ =>
    rw [hasGroup, Bool.or_eq_true]
    exact .inl (ihp (Bool.and_eq_true_iff.1 hp).1)
  | _ => cases hp

theorem Matches.lookup_group {i : Nat} {cs : List Char} (h : (group i p).Matches x y)
    (hafter : x.1.afterText? cs = some y.1) : y.2.lookup i = some cs := by
  obtain ⟨gs, -, hgs⟩ := h
  rw [hgs, (Place.Leads.afterText? hafter).upTo, List.lookup_cons_self]

theorem Matches.captures {i : Nat} (hp : p.captures i = true) (h : p.Matches x y) :
    i ∈ y.2.map (·.1) := by
  induction p generalizing x y with
  | group j p ih =>
    obtain ⟨gs, h, hgs⟩ := h
    rw [hgs]
    rcases Bool.or_eq_true_iff.1 hp with hj | hp
    · simp [beq_iff_eq.1 hj]
    · exact List.mem_cons_of_mem _ (ih hp h)
  | seq p q ihp ihq =>
    obtain ⟨z, hxz, hzy⟩ := h
    rcases Bool.or_eq_true_iff.1 hp with hp | hq
    · obtain ⟨-, -, hsuffix⟩ := hzy.leads
      exact (hsuffix.map _).subset (ihp hp hxz)
    · exact ihq hq hzy
  | alt p q ihp ihq =>
    obtain ⟨hp, hq⟩ := Bool.and_eq_true_iff.1 hp
    rcases h with h | h
    · exact ihp hp h
    · exact ihq hq h
  | _ => cases hp

/-! ## Searching -/

variable {m : Match}

theorem matches_of_matchWith? {f : Place → Bool} (h : p.matchWith? f s = some m) :
    m.start = s ∧ p.Matches (s, []) (m.stop, m.groups) := by
  obtain ⟨t, hs, tried, hst, ht⟩ := run_keeps p 0 h
  dsimp only at ht
  split at ht
  · cases ht
    exact ⟨rfl, hst⟩
  · cases ht

theorem group?_of_matchWith? {i : Nat} (hp : p.captures i = true) {f : Place → Bool}
    (h : p.matchWith? f s = some m) : (m.group? i).isSome = true := by
  simpa [Match.group?, List.lookup_isSome_iff] using (matches_of_matchWith? h).2.captures hp

/-- The match is one of the pattern, and starts at a place of the text that follows. -/
structure Finds (p : Pattern) (s : Place) (m : Match) : Prop where
  start : ∃ cs, s.afterText? cs = some m.start
  reaches : p.Reaches m.start m.stop

theorem finds_of_matchWith? {f : Place → Bool} (h : p.matchWith? f s = some m) : p.Finds s m := by
  obtain ⟨hstart, hmatches⟩ := matches_of_matchWith? h
  exact ⟨⟨[], congrArg some hstart.symm⟩, hstart ▸ hmatches.reaches⟩

theorem finds_of_searchFrom? {before : Option Char} {offset : Nat} {text : List Char}
    (h : p.searchFrom? before offset text = some m) : p.Finds ⟨before, text, offset⟩ m := by
  induction text generalizing before offset with
  | nil => exact finds_of_matchWith? h
  | cons c rest ih =>
    unfold searchFrom? at h
    rcases hm : p.matchAt? ⟨before, c :: rest, offset⟩ with _ | m'
    · rw [hm] at h
      obtain ⟨⟨cs, hcs⟩, hreaches⟩ := ih h
      refine ⟨⟨c :: cs, ?_⟩, hreaches⟩
      rw [Place.afterText?]
      exact (if_pos rfl).trans hcs
    · rw [hm] at h
      cases h
      exact finds_of_matchWith? hm

theorem group?_of_searchFrom? {i : Nat} (hp : p.captures i = true) {before : Option Char}
    {offset : Nat} {text : List Char} (h : p.searchFrom? before offset text = some m) :
    (m.group? i).isSome = true := by
  induction text generalizing before offset with
  | nil => exact group?_of_matchWith? hp h
  | cons c rest ih =>
    unfold searchFrom? at h
    rcases hm : p.matchAt? ⟨before, c :: rest, offset⟩ with _ | m'
    · rw [hm] at h
      exact ih h
    · rw [hm] at h
      cases h
      exact group?_of_matchWith? hp hm

theorem finds_of_seek? {text : List Char} (h : p.seek? text = some m) :
    p.Finds (.start text) m :=
  finds_of_searchFrom? (seek?_eq_searchFrom? p text ▸ h)

/-- A group that every match goes through has taken part, whichever way it was searched. -/
theorem group?_of_search? {i : Nat} (hp : p.captures i = true) {text : List Char}
    (h : p.search? text = some m) : (m.group? i).isSome = true := by
  have hseek : p.seek? text = some m → (m.group? i).isSome = true := fun h =>
    group?_of_searchFrom? hp (seek?_eq_searchFrom? p text ▸ h)
  unfold search? at h
  split at h
  · split at h
    · exact hseek h
    · cases h
    · rw [hasGroup_of_captures hp] at h
      exact group?_of_matchWith? hp h
  · exact hseek h

end Pattern

end JayFrontEnd
