import JayFrontEnd.Pattern.Match

/-!
# What a pattern matches

`Pattern.Matches` says between which places a pattern matches, and what its groups take there; it
leaves open which of the ways to match comes first. A search keeps to it: what it answers is the
answer of its continuation at a place that the pattern matches up to.
-/

namespace JayFrontEnd

/-- A number of turns, one after the other. -/
def Turns {α : Type} (R : α → α → Prop) : Nat → α → α → Prop
  | 0, x, y => y = x
  | count + 1, x, y => ∃ z, R x z ∧ Turns R count z y

theorem Turns.append {α : Type} {R : α → α → Prop} {m n : Nat} {x y z : α} (h : Turns R m x y)
    (h' : Turns R n y z) : Turns R (m + n) x z := by
  induction m generalizing x with
  | zero =>
    cases h
    rw [Nat.zero_add]
    exact h'
  | succ m ih =>
    obtain ⟨w, hw, h⟩ := h
    rw [Nat.add_right_comm]
    exact ⟨w, hw, ih h⟩

theorem Turns.mono {α : Type} {R R' : α → α → Prop} {count : Nat} {x y : α}
    (h : Turns R count x y) (hR : ∀ x y, R x y → R' x y) : Turns R' count x y := by
  induction count generalizing x with
  | zero => exact h
  | succ count ih =>
    obtain ⟨z, hxz, h⟩ := h
    exact ⟨z, hR x z hxz, ih h⟩

namespace Pattern

/-- The pattern matches from the first place to the second. With each place stands what groups have
taken up to there. -/
def Matches : Pattern → Place × Groups → Place × Groups → Prop
  | empty, x, y => y = x
  | text cs, x, y => x.1.afterText? cs = some y.1 ∧ y.2 = x.2
  | one k, x, y => ∃ c, k.contains c = true ∧ x.1.afterText? [c] = some y.1 ∧ y.2 = x.2
  | check a, x, y => a.holds x.1 = true ∧ y = x
  | group i p, x, y => ∃ gs, p.Matches x (y.1, gs) ∧ y.2 = (i, x.1.upTo y.1) :: gs
  | seq p q, x, y => ∃ z, p.Matches x z ∧ q.Matches z y
  | alt p q, x, y => p.Matches x y ∨ q.Matches x y
  | repeated least most _ p, x, y =>
    ∃ count, least ≤ count ∧ (∀ m ∈ most, count ≤ max least m) ∧ Turns p.Matches count x y

variable {β : Type}

/-- Some place that the relation leads to is accepted by the continuation. -/
def Accepts (R : Place × Groups → Place × Groups → Prop) (s : Place) (gs : Groups)
    (k : Continuation β) (b : β) : Prop :=
  ∃ t hs tried, R (s, gs) (t, hs) ∧ (k t hs tried).1 = some b

/-- What the runner answers is the continuation's answer for a place that the relation leads to. -/
def Keeps (r : Runner β) (R : Place × Groups → Place × Groups → Prop) : Prop :=
  ∀ {s gs k tried b}, (r s gs k tried).1 = some b → Accepts R s gs k b

variable {R R' Q : Place × Groups → Place × Groups → Prop} {s t : Place} {gs hs : Groups}
  {k k' : Continuation β} {tried : Tried} {b : β}

/-- What a continuation goes on to. -/
theorem Accepts.trans (h : Accepts R s gs k b)
    (hk : ∀ {t hs tried}, (k t hs tried).1 = some b → Accepts R' t hs k' b)
    (hQ : ∀ {x y z}, R x y → R' y z → Q x z) : Accepts Q s gs k' b := by
  obtain ⟨t, hs, tried, hst, ht⟩ := h
  obtain ⟨u, is, tried, htu, hu⟩ := hk ht
  exact ⟨u, is, tried, hQ hst htu, hu⟩

theorem Accepts.mono (h : Accepts R s gs k b) (hQ : ∀ {x y}, R x y → Q x y) :
    Accepts Q s gs k b := by
  obtain ⟨t, hs, tried, hst, ht⟩ := h
  exact ⟨t, hs, tried, hQ hst, ht⟩

theorem orElse_eq_some {first second : Tried → Option β × Tried}
    (h : (orElse first second tried).1 = some b) :
    (∃ tried, (first tried).1 = some b) ∨ ∃ tried, (second tried).1 = some b := by
  unfold orElse at h
  split at h
  · exact .inr ⟨_, h⟩
  · exact .inl ⟨_, h⟩

theorem choose_eq_some {n : Nat} {greedy : Bool} {on off : Tried → Option β × Tried}
    (h : (choose n s greedy on off tried).1 = some b) :
    (∃ tried, (on tried).1 = some b) ∨ ∃ tried, (off tried).1 = some b := by
  unfold choose at h
  split at h
  · cases h
  · split at h
    · exact orElse_eq_some h
    · exact (orElse_eq_some h).symm

/-- Some number of turns, at most as many as there may be. -/
def UpTo (most : Option Nat) (R : Place × Groups → Place × Groups → Prop)
    (x y : Place × Groups) : Prop := ∃ count, (∀ m ∈ most, count ≤ m) ∧ Turns R count x y

/-- No turn at all. -/
theorem accepts_upTo {most : Option Nat} (h : (k s gs tried).1 = some b) :
    Accepts (UpTo most R) s gs k b :=
  ⟨s, gs, tried, ⟨0, fun _ _ => Nat.zero_le _, rfl⟩, h⟩

theorem UpTo.refl {most : Option Nat} {x : Place × Groups} : UpTo most R x x :=
  ⟨0, fun _ _ => Nat.zero_le _, rfl⟩

theorem UpTo.cons {most : Option Nat} {x y z : Place × Groups} (h : R x y)
    (h' : UpTo most R y z) : UpTo (most.map (· + 1)) R x z := by
  obtain ⟨count, hcount, h'⟩ := h'
  refine ⟨count + 1, ?_, y, h, h'⟩
  cases most with
  | none => exact nofun
  | some m =>
    rintro _ ⟨⟩
    exact Nat.succ_le_succ (hcount m rfl)

theorem loop_keeps {n : Nat} {greedy : Bool} {turn : Runner β} (hturn : Keeps turn R)
    {fuel : List Char} (h : (loop n greedy turn k fuel s gs tried).1 = some b) :
    Accepts (UpTo none R) s gs k b := by
  induction fuel generalizing s gs tried with
  | nil =>
    rcases choose_eq_some h with ⟨tried, h⟩ | ⟨tried, h⟩
    · obtain ⟨t, hs, tried, -, ht⟩ := hturn h
      cases ht
    · exact accepts_upTo h
  | cons c fuel ih =>
    rcases choose_eq_some h with ⟨tried, h⟩ | ⟨tried, h⟩
    · exact (hturn h).trans ih UpTo.cons
    · exact accepts_upTo h

theorem exactly_keeps {width : Nat} {turn : Nat → Runner β} (hturn : ∀ n, Keeps (turn n) R)
    {count n : Nat} (h : (exactly width turn k count n s gs tried).1 = some b) :
    Accepts (Turns R count) s gs k b := by
  induction count generalizing n s gs tried with
  | zero => exact ⟨s, gs, tried, rfl, h⟩
  | succ count ih => exact (hturn n h).trans ih fun hxy hyz => ⟨_, hxy, hyz⟩

theorem atMost_keeps {width : Nat} {greedy : Bool} {turn : Nat → Runner β}
    (hturn : ∀ n, Keeps (turn n) R) {count n : Nat}
    (h : (atMost width greedy turn k count n s gs tried).1 = some b) :
    Accepts (UpTo (some count) R) s gs k b := by
  induction count generalizing n s gs tried with
  | zero => exact accepts_upTo h
  | succ count ih =>
    rcases choose_eq_some h with ⟨tried, h⟩ | ⟨tried, h⟩
    · exact (hturn _ h).trans ih UpTo.cons
    · exact accepts_upTo h

/-- The turns that have to be, and those that may follow. -/
theorem matches_repeated {p : Pattern} {least : Nat} {most : Option Nat} {greedy : Bool}
    {x y z : Place × Groups} (h : Turns p.Matches least x y)
    (h' : UpTo (most.map (· - least)) p.Matches y z) :
    (repeated least most greedy p).Matches x z := by
  obtain ⟨count, hcount, h'⟩ := h'
  refine ⟨least + count, Nat.le_add_right .., ?_, h.append h'⟩
  rintro m rfl
  have := hcount (m - least) rfl
  omega

/-- A search answers for places that the pattern matches up to. -/
theorem run_keeps (p : Pattern) (n : Nat) : Keeps (p.run n : Runner β) p.Matches := by
  induction p generalizing n with
  | empty => exact fun {s gs _ tried _} h => ⟨s, gs, tried, rfl, h⟩
  | text cs =>
    intro s gs k tried b h
    unfold run at h
    split at h
    · cases h
    · next t ht => exact ⟨t, gs, tried, ⟨ht, rfl⟩, h⟩
  | one c =>
    intro s gs k tried b h
    unfold run at h
    split at h
    · cases h
    · next x rest hrest =>
      split at h
      · next hx =>
        exact ⟨_, gs, tried, ⟨x, hx, Place.afterText?_single hrest, rfl⟩, h⟩
      · cases h
  | check a =>
    intro s gs k tried b h
    unfold run at h
    split at h
    · next ha => exact ⟨s, gs, tried, ⟨ha, rfl⟩, h⟩
    · cases h
  | group i p ih =>
    intro s gs k tried b h
    obtain ⟨t, hs, tried, hst, ht⟩ := ih n h
    exact ⟨t, (i, s.upTo t) :: hs, tried, ⟨hs, hst, rfl⟩, ht⟩
  | seq p q ihp ihq =>
    exact fun h => (ihp n h).trans (fun h => ihq _ h) fun hxy hyz => ⟨_, hxy, hyz⟩
  | alt p q ihp ihq =>
    intro s gs k tried b h
    rcases choose_eq_some h with ⟨tried, h⟩ | ⟨tried, h⟩
    · exact (ihp _ h).mono .inl
    · exact (ihq _ h).mono .inr
  | repeated least most greedy p ih =>
    intro s gs k tried b h
    cases most with
    | some most =>
      exact (exactly_keeps ih h).trans (fun h => atMost_keeps ih h) fun hxy hyz =>
        matches_repeated hxy hyz
    | none =>
      cases least with
      | zero =>
        have hturns : Accepts (UpTo none p.Matches) s gs k b := by
          unfold run at h
          split at h
          · exact loop_keeps (ih _) h
          · rcases choose_eq_some h with ⟨tried, h⟩ | ⟨tried, h⟩
            · exact (ih _ h).trans (fun h => loop_keeps (ih _) h) UpTo.cons
            · exact accepts_upTo h
        have hnone : Turns p.Matches 0 (s, gs) (s, gs) := rfl
        obtain ⟨t, hs, tried, hst, ht⟩ := hturns
        exact ⟨t, hs, tried, matches_repeated hnone hst, ht⟩
      | succ least =>
        obtain ⟨t, hs, tried, hst, h⟩ := exactly_keeps ih h
        obtain ⟨u, is, tried, htu, h⟩ := ih _ h
        obtain ⟨v, js, tried, huv, h⟩ := loop_keeps (ih _) h
        have hleast := hst.append (n := 1) ⟨_, htu, rfl⟩
        exact ⟨v, js, tried, matches_repeated hleast huv, h⟩

end Pattern

end JayFrontEnd
