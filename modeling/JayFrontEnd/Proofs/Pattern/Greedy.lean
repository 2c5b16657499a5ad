import JayFrontEnd.Proofs.Pattern.Backtracking

/-!
# Straight ways

`Pattern.Goes` says which way of a pattern is preferred at a place, with a rule for each way to
build a pattern. A greedy loop goes on for as long as there are turns to go, to the place where
there is none.
-/

namespace JayFrontEnd

open Way

namespace Pattern

/-- The way that is preferred goes from the first place to the second. With each place stands what
groups have taken up to there. -/
def Goes (p : Pattern) (x y : Place × Groups) : Prop :=
  ∃ gs, (p.ways x.1).head? = some ⟨y.1, gs⟩ ∧ y.2 = gs ++ x.2

variable {p q : Pattern} {x y z : Place × Groups} {s t : Place} {gs hs : Groups}
  {cs : List Char} {K : CharSet}

theorem Goes.matchAt? (hp : p.steady = true) (h : p.Goes (s, []) (t, hs)) :
    p.matchAt? s = some ⟨s, t, hs⟩ := by
  obtain ⟨gs, hways, rfl⟩ := h
  rw [matchAt?_eq hp, hways, List.append_nil]
  rfl

theorem goes_text (h : s.afterText? cs = some t) : (text cs).Goes (s, gs) (t, gs) := by
  refine ⟨[], ?_, rfl⟩
  rw [ways, h]
  rfl

theorem goes_one {c : Char} (hc : K.contains c = true) (h : s.afterText? [c] = some t) :
    (one K).Goes (s, gs) (t, gs) := by
  have hrest : s.rest = c :: t.rest := (Place.Leads.afterText? h).rest
  have hafter : s.after c t.rest = t :=
    Option.some.inj ((Place.afterText?_single hrest).symm.trans h)
  refine ⟨[], ?_, rfl⟩
  simp [ways, hrest, hc, stay, hafter]

theorem goes_check {a : Assertion} (h : a.holds s = true) : (check a).Goes (s, gs) (s, gs) := by
  refine ⟨[], ?_, rfl⟩
  rw [ways, if_pos h]
  rfl

theorem Goes.group (h : p.Goes (s, gs) (t, hs)) (i : Nat) (hafter : s.afterText? cs = some t) :
    (group i p).Goes (s, gs) (t, (i, cs) :: hs) := by
  obtain ⟨is, hways, rfl⟩ := h
  refine ⟨(i, cs) :: is, ?_, rfl⟩
  rw [ways, List.head?_map, hways, ← (Place.Leads.afterText? hafter).upTo]
  rfl

theorem head?_chain {vs : List Way} {next : Place → List Way} {v w : Way} (hv : vs.head? = some v)
    (hw : (next v.stop).head? = some w) : (chain vs next).head? = some (v.andThen w) := by
  obtain ⟨vs, rfl⟩ := List.head?_eq_some_iff.1 hv
  obtain ⟨ws, hws⟩ := List.head?_eq_some_iff.1 hw
  rw [chain, List.flatMap_cons, hws]
  rfl

theorem Goes.seq (hp : p.Goes x y) (hq : q.Goes y z) : (seq p q).Goes x z := by
  obtain ⟨gs, hv, hy⟩ := hp
  obtain ⟨hs, hw, hz⟩ := hq
  refine ⟨hs ++ gs, head?_chain hv hw, ?_⟩
  rw [hz, hy, List.append_assoc]

/-! ## Loops -/

theorem goes_star {count : Nat} (hp : p.consumes = true) (hturns : Turns p.Goes count x y)
    (hstop : p.ways y.1 = []) : (repeated 0 none true p).Goes x y := by
  show ∃ gs, (Way.loop true p.ways x.1.rest x.1).head? = some ⟨y.1, gs⟩ ∧ y.2 = gs ++ x.2
  induction count generalizing x with
  | zero =>
    cases hturns
    rw [loop_ways hp, hstop]
    exact ⟨[], rfl, rfl⟩
  | succ count ih =>
    obtain ⟨z, ⟨gs, hv, hz⟩, hturns⟩ := hturns
    obtain ⟨hs, hw, hy⟩ := ih hturns
    rw [loop_ways hp]
    have hon : (chain (p.ways x.1) fun t => Way.loop true p.ways t.rest t).head? = _ :=
      head?_chain hv hw
    refine ⟨hs ++ gs, ?_, by rw [hy, hz, List.append_assoc]⟩
    rw [prefer, if_pos rfl, List.head?_append, hon]
    rfl

/-- A loop with a number of turns at least. -/
theorem goes_loop {least count : Nat} (hp : p.consumes = true)
    (hturns : Turns p.Goes (least + count) x y) (hstop : p.ways y.1 = []) :
    (repeated least none true p).Goes x y := by
  induction least generalizing x with
  | zero => exact goes_star hp (Nat.zero_add count ▸ hturns) hstop
  | succ least ih =>
    rw [Nat.add_right_comm] at hturns
    obtain ⟨z, ⟨gs, hv, hz⟩, hturns⟩ := hturns
    obtain ⟨hs, hw, hy⟩ := ih hturns
    exact ⟨hs ++ gs, head?_chain hv hw, by rw [hy, hz, List.append_assoc]⟩

/-! ## Loops over pieces of text -/

/-- A text of the language lies between the places, and groups take nothing. -/
def Takes (L : List Char → Prop) (x y : Place × Groups) : Prop :=
  ∃ cs, L cs ∧ x.1.afterText? cs = some y.1 ∧ y.2 = x.2

variable {L : List Char → Prop}

theorem turns_takes_iff {count : Nat} : Turns (Takes L) count x y ↔
    ∃ pieces : List (List Char), pieces.length = count ∧ (∀ cs ∈ pieces, L cs) ∧
      x.1.afterText? pieces.flatten = some y.1 ∧ y.2 = x.2 := by
  induction count generalizing x with
  | zero =>
    constructor
    · intro h
      cases h
      exact ⟨[], rfl, nofun, rfl, rfl⟩
    · rintro ⟨pieces, hlength, -, hafter, hgs⟩
      obtain rfl := List.length_eq_zero_iff.1 hlength
      exact Prod.ext (Option.some.inj hafter).symm hgs
  | succ count ih =>
    constructor
    · rintro ⟨z, ⟨cs, hcs, hafter, hgs⟩, h⟩
      obtain ⟨pieces, hlength, hpieces, hrest, hgs'⟩ := ih.1 h
      refine ⟨cs :: pieces, congrArg (· + 1) hlength, List.forall_mem_cons.2 ⟨hcs, hpieces⟩, ?_,
        hgs'.trans hgs⟩
      rw [List.flatten_cons, Place.afterText?_append, hafter]
      exact hrest
    · rintro ⟨pieces, hlength, hpieces, hafter, hgs⟩
      obtain ⟨cs, pieces, rfl⟩ := List.exists_cons_of_length_eq_add_one hlength
      obtain ⟨hcs, hpieces⟩ := List.forall_mem_cons.1 hpieces
      rw [List.flatten_cons] at hafter
      obtain ⟨t, ht, hrest⟩ := Place.exists_of_afterText?_append _ hafter
      exact ⟨(t, x.2), ⟨cs, hcs, ht, rfl⟩,
        ih.2 ⟨pieces, Nat.succ.inj hlength, hpieces, hrest, hgs⟩⟩

/-- The pattern takes the texts of a language, one in a turn. -/
structure TakesTurns (p : Pattern) (L : List Char → Prop) : Prop where
  consumes : p.consumes = true
  matches_takes : ∀ {x y}, p.Matches x y → Takes L x y
  goes : ∀ {x y}, Takes L x y → p.Goes x y

theorem TakesTurns.pieces (hp : p.TakesTurns L) {least : Nat} {most : Option Nat} {greedy : Bool}
    (h : (repeated least most greedy p).Matches x y) :
    ∃ pieces : List (List Char), least ≤ pieces.length ∧ (∀ cs ∈ pieces, L cs) ∧
      x.1.afterText? pieces.flatten = some y.1 ∧ y.2 = x.2 := by
  obtain ⟨count, hcount, -, h⟩ := h
  obtain ⟨pieces, hlength, hpieces⟩ := turns_takes_iff.1 (h.mono fun _ _ h => hp.matches_takes h)
  exact ⟨pieces, hlength ▸ hcount, hpieces⟩

/-- A greedy loop takes all the pieces that there are. -/
theorem TakesTurns.goes_loop (hp : p.TakesTurns L) {least : Nat} {pieces : List (List Char)}
    (hlength : least ≤ pieces.length) (hpieces : ∀ cs ∈ pieces, L cs)
    (hafter : s.afterText? pieces.flatten = some t) (hstop : ∀ cs, L cs → ¬ cs <+: t.rest) :
    (repeated least none true p).Goes (s, gs) (t, gs) := by
  have hnone : p.ways t = [] := by
    refine List.eq_nil_iff_forall_not_mem.2 fun w hw => ?_
    obtain ⟨cs, hcs, hafter, -⟩ := hp.matches_takes (follows_ways p t w hw [])
    exact hstop cs hcs ⟨_, (Place.Leads.afterText? hafter).rest.symm⟩
  obtain ⟨count, hcount⟩ := Nat.exists_eq_add_of_le hlength
  have hturns : Turns (Takes L) (least + count) (s, gs) (t, gs) :=
    turns_takes_iff.2 ⟨pieces, hcount, hpieces, hafter, rfl⟩
  exact Pattern.goes_loop hp.consumes (hturns.mono fun _ _ h => hp.goes h) hnone

theorem takesTurns_one (K : CharSet) :
    (one K).TakesTurns fun cs => ∃ c, cs = [c] ∧ K.contains c = true where
  consumes := rfl
  matches_takes := by
    rintro x y ⟨c, hc, hafter, hgs⟩
    exact ⟨[c], ⟨c, rfl, hc⟩, hafter, hgs⟩
  goes := by
    rintro ⟨s, gs⟩ ⟨t, hs⟩ ⟨cs, ⟨c, rfl, hc⟩, hafter, rfl⟩
    exact goes_one hc hafter

theorem flatten_singletons (cs : List Char) : (cs.map fun c => [c]).flatten = cs := by
  rw [← List.flatMap_def, List.flatMap_singleton']

theorem matches_run {least : Nat} {most : Option Nat} {greedy : Bool}
    (h : (repeated least most greedy (one K)).Matches x y) :
    ∃ cs, least ≤ cs.length ∧ (∀ c ∈ cs, K.contains c = true) ∧
      x.1.afterText? cs = some y.1 ∧ y.2 = x.2 := by
  obtain ⟨pieces, hlength, hpieces, hafter, hgs⟩ := (takesTurns_one K).pieces h
  have hsingle : ∃ cs : List Char, pieces = cs.map (fun c => [c]) ∧
      ∀ c ∈ cs, K.contains c = true := by
    clear hlength hafter
    induction pieces with
    | nil => exact ⟨[], rfl, nofun⟩
    | cons piece pieces ih =>
      obtain ⟨⟨c, rfl, hc⟩, hrest⟩ := List.forall_mem_cons.1 hpieces
      obtain ⟨cs, rfl, hcs⟩ := ih hrest
      exact ⟨c :: cs, rfl, List.forall_mem_cons.2 ⟨hc, hcs⟩⟩
  obtain ⟨cs, rfl, hcs⟩ := hsingle
  rw [flatten_singletons] at hafter
  exact ⟨cs, by simpa using hlength, hcs, hafter, hgs⟩

theorem goes_run (gs : Groups) {least : Nat} (hlength : least ≤ cs.length)
    (hcs : ∀ c ∈ cs, K.contains c = true) (hafter : s.afterText? cs = some t)
    (hstop : ∀ c, K.contains c = true → ¬ [c] <+: t.rest) :
    (repeated least none true (one K)).Goes (s, gs) (t, gs) := by
  have hpieces : ∀ piece ∈ cs.map (fun c => [c]), ∃ c, piece = [c] ∧ K.contains c = true := by
    intro piece hpiece
    obtain ⟨c, hc, rfl⟩ := List.mem_map.1 hpiece
    exact ⟨c, rfl, hcs c hc⟩
  rw [← flatten_singletons cs] at hafter
  refine (takesTurns_one K).goes_loop ?_ hpieces hafter ?_
  · rw [List.length_map]
    exact hlength
  · rintro piece ⟨c, rfl, hc⟩
    exact hstop c hc

theorem goes_optional (h : s.afterText? cs = some t ∨ s.afterText? cs = none ∧ t = s) :
    (repeated 0 (some 1) true (text cs)).Goes (s, gs) (t, gs) := by
  have hways : (repeated 0 (some 1) true (text cs)).ways s =
      chain ((text cs).ways s) (fun u => [stay u]) ++ [stay s] := rfl
  refine ⟨[], ?_, rfl⟩
  rw [hways, ways]
  rcases h with h | ⟨h, rfl⟩ <;> rw [h] <;> rfl

theorem takesTurns_optional {a b : Char} (hab : a ≠ b) :
    (seq (repeated 0 (some 1) true (text [a])) (text [b])).TakesTurns
      fun cs => cs = [b] ∨ cs = [a, b] where
  consumes := rfl
  matches_takes := by
    rintro x y ⟨z, ⟨count, -, hcount, hturns⟩, hb, hgs⟩
    have hle : count ≤ 1 := hcount 1 rfl
    obtain rfl | rfl := Nat.le_one_iff_eq_zero_or_eq_one.1 hle
    · cases hturns
      exact ⟨[b], .inl rfl, hb, hgs⟩
    · obtain ⟨w, ⟨ha, hgs'⟩, hzw⟩ := hturns
      cases hzw
      exact ⟨[a] ++ [b], .inr rfl, Place.afterText?_trans ha hb, hgs.trans hgs'⟩
  goes := by
    rintro ⟨s, gs⟩ ⟨t, hs⟩ ⟨cs, rfl | rfl, hafter, rfl⟩
    · have hnone : s.afterText? [a] = none := by
        rw [Option.eq_none_iff_forall_ne_some]
        intro u hu
        have hb := (Place.Leads.afterText? hafter).rest
        rw [(Place.Leads.afterText? hu).rest] at hb
        exact hab (List.cons.inj hb).1
      exact (goes_optional (.inr ⟨hnone, rfl⟩)).seq (goes_text hafter)
    · obtain ⟨u, hu, ht⟩ := Place.exists_of_afterText?_append [a] hafter
      exact (goes_optional (.inl hu)).seq (goes_text ht)

end Pattern

end JayFrontEnd
