import JayFrontEnd.Proofs.Pattern.Span
import Mathlib.Data.List.Basic

/-!
# The ways to match

`Pattern.ways` lists all ways to match a pattern from a place on, the preferred first: an earlier
branch before a later one, more turns before fewer, or the other way round where a repetition is
lazy. A search for the leftmost match answers with the first way at the first place that has any;
`LeftmostFirst` says so of any list of ways. `Preference.Perl` is what an order of preference has to
do with the parts of a pattern.
-/

namespace JayFrontEnd

/-- A way to match: where it stops, and what groups have taken on it, the latest first. -/
structure Way where
  stop : Place
  groups : Groups
  deriving DecidableEq

namespace Way

/-- The way that takes nothing. -/
def stay (s : Place) : Way := ⟨s, []⟩

def andThen (v w : Way) : Way := ⟨w.stop, w.groups ++ v.groups⟩

/-- Each way and then each way from where it stops; the first choice matters most. -/
def chain (vs : List Way) (next : Place → List Way) : List Way :=
  vs.flatMap fun v => (next v.stop).map v.andThen

/-- Going on is preferred to leaving, unless the repetition is lazy. -/
def prefer (greedy : Bool) (on off : List Way) : List Way := if greedy then on ++ off else off ++ on

/-- A number of turns and then what comes last. -/
def turns (turn last : Place → List Way) : Nat → Place → List Way
  | 0, s => last s
  | count + 1, s => chain (turn s) (turns turn last count)

/-- At most a number of turns. -/
def atMost (greedy : Bool) (turn : Place → List Way) : Nat → Place → List Way
  | 0, s => [stay s]
  | count + 1, s => prefer greedy (chain (turn s) (atMost greedy turn count)) [stay s]

/-- Any number of turns that take something. The list bounds their number. -/
def loop (greedy : Bool) (turn : Place → List Way) : List Char → Place → List Way
  | [], s => [stay s]
  | _ :: fuel, s =>
    let taking := (turn s).filter (·.stop ≠ s)
    prefer greedy (chain taking (loop greedy turn fuel)) [stay s]

end Way

open Way

/-- The ways to match each pattern at each place, the preferred first. -/
abbrev Preference := Pattern → Place → List Way

def Pattern.ways : Preference
  | empty, s => [stay s]
  | text cs, s => ((s.afterText? cs).map stay).toList
  | one k, s =>
    match s.rest with
    | [] => []
    | c :: rest => if k.contains c then [stay (s.after c rest)] else []
  | check a, s => if a.holds s then [stay s] else []
  | group i p, s => (p.ways s).map fun w => ⟨w.stop, (i, s.upTo w.stop) :: w.groups⟩
  | seq p q, s => chain (p.ways s) q.ways
  | alt p q, s => p.ways s ++ q.ways s
  | repeated min (some max) greedy p, s =>
    turns p.ways (Way.atMost greedy p.ways (max - min)) min s
  | repeated min none greedy p, s => turns p.ways (fun t => Way.loop greedy p.ways t.rest t) min s

/-- Perl's order of preference. What a turn of a loop without a bound does that takes nothing is
left open. -/
structure Preference.Perl (ways : Preference) : Prop where
  empty : ∀ s, ways .empty s = [stay s]
  text : ∀ cs s, ways (.text cs) s = ((s.afterText? cs).map stay).toList
  one : ∀ k s, ways (.one k) s =
    match s.rest with
    | [] => []
    | c :: rest => if k.contains c then [stay (s.after c rest)] else []
  check : ∀ a s, ways (.check a) s = if a.holds s then [stay s] else []
  group : ∀ i p s, ways (.group i p) s =
    (ways p s).map fun w => ⟨w.stop, (i, s.upTo w.stop) :: w.groups⟩
  seq : ∀ p q s, ways (.seq p q) s = chain (ways p s) (ways q)
  alt : ∀ p q s, ways (.alt p q) s = ways p s ++ ways q s
  turn : ∀ min max greedy p s, ways (.repeated (min + 1) (some (max + 1)) greedy p) s =
    chain (ways p s) (ways (.repeated min (some max) greedy p))
  spent : ∀ greedy p s, ways (.repeated 0 (some 0) greedy p) s = [stay s]
  choice : ∀ max greedy p s, ways (.repeated 0 (some (max + 1)) greedy p) s =
    prefer greedy (chain (ways p s) (ways (.repeated 0 (some max) greedy p))) [stay s]
  turnOfLoop : ∀ min greedy p s, ways (.repeated (min + 1) none greedy p) s =
    chain (ways p s) (ways (.repeated min none greedy p))
  loop : ∀ greedy p s, p.consumes = true → ways (.repeated 0 none greedy p) s =
    prefer greedy (chain (ways p s) (ways (.repeated 0 none greedy p))) [stay s]

/-- What a search answers that takes the first way at the first place, from `origin` on, that has
any. -/
inductive LeftmostFirst (ways : Place → List Way) (origin : Place) : Option Match → Prop where
  | found {before : List Char} {s : Place} {w : Way} : origin.afterText? before = some s →
      (∀ earlier t, earlier <+: before → earlier ≠ before → origin.afterText? earlier = some t →
        ways t = []) →
      (ways s).head? = some w → LeftmostFirst ways origin (some ⟨s, w.stop, w.groups⟩)
  | missing : (∀ before t, origin.afterText? before = some t → ways t = []) →
      LeftmostFirst ways origin none

namespace Way

theorem mem_chain {vs : List Way} {next : Place → List Way} {w : Way} :
    w ∈ chain vs next ↔ ∃ v ∈ vs, ∃ u ∈ next v.stop, v.andThen u = w := by
  simp [chain]

theorem mem_prefer {greedy : Bool} {on off : List Way} {w : Way} :
    w ∈ prefer greedy on off ↔ w ∈ on ∨ w ∈ off := by
  unfold prefer
  split <;> simp [or_comm]

theorem chain_congr {vs : List Way} {next next' : Place → List Way}
    (h : ∀ v ∈ vs, next v.stop = next' v.stop) : chain vs next = chain vs next' :=
  List.flatMap_congr fun v hv => by rw [h v hv]

theorem turns_succ (turn last : Place → List Way) (count : Nat) (s : Place) :
    turns turn last (count + 1) s = turns turn (fun t => chain (turn t) last) count s := by
  induction count generalizing s with
  | zero => rfl
  | succ count ih => exact chain_congr fun v _ => ih v.stop

theorem chain_singleton (v : Way) (next : Place → List Way) :
    chain [v] next = (next v.stop).map v.andThen := by
  simp [chain]

theorem stay_andThen (s : Place) (w : Way) : (stay s).andThen w = w := by
  simp [andThen, stay]

/-- Nothing comes before. -/
theorem chain_stay (s : Place) (next : Place → List Way) : chain [stay s] next = next s := by
  rw [chain_singleton]
  exact (List.map_congr_left fun w _ => stay_andThen s w).trans (List.map_id _)

/-- Every way goes where the relation leads, whatever groups have taken before. -/
def Follows (f : Place → List Way) (R : Place × Groups → Place × Groups → Prop) : Prop :=
  ∀ s, ∀ w ∈ f s, ∀ gs, R (s, gs) (w.stop, w.groups ++ gs)

namespace Follows

variable {f g : Place → List Way} {R R' : Place × Groups → Place × Groups → Prop}

theorem stay {s : Place} {w : Way} (hw : w ∈ [Way.stay s]) (gs : Groups) :
    (w.stop, w.groups ++ gs) = (s, gs) := by
  rw [List.mem_singleton.1 hw]
  rfl

theorem chain (hf : Follows f R) (hg : Follows g R') :
    Follows (fun s => chain (f s) g) fun x y => ∃ z, R x z ∧ R' z y := by
  intro s w hw gs
  obtain ⟨v, hv, u, hu, rfl⟩ := mem_chain.1 hw
  refine ⟨_, hf s v hv gs, ?_⟩
  have := hg _ u hu (v.groups ++ gs)
  rwa [← List.append_assoc] at this

theorem turns (hf : Follows f R) (hg : Follows g R') (count : Nat) :
    Follows (turns f g count) fun x y => ∃ z, Turns R count x z ∧ R' z y := by
  induction count with
  | zero => exact fun s w hw gs => ⟨_, rfl, hg s w hw gs⟩
  | succ count ih =>
    intro s w hw gs
    obtain ⟨z, hz, u, hturns, hu⟩ := hf.chain ih s w hw gs
    exact ⟨u, ⟨z, hz, hturns⟩, hu⟩

theorem atMost (hf : Follows f R) (greedy : Bool) (count : Nat) :
    Follows (atMost greedy f count) (Pattern.UpTo (some count) R) := by
  induction count with
  | zero => exact fun s w hw gs => stay hw gs ▸ .refl
  | succ count ih =>
    intro s w hw gs
    rcases mem_prefer.1 hw with hw | hw
    · obtain ⟨z, hz, hrest⟩ := hf.chain ih s w hw gs
      exact .cons hz hrest
    · exact stay hw gs ▸ .refl

theorem loop (hf : Follows f R) (greedy : Bool) (fuel : List Char) :
    Follows (loop greedy f fuel) (Pattern.UpTo none R) := by
  induction fuel with
  | nil => exact fun s w hw gs => stay hw gs ▸ .refl
  | cons _ fuel ih =>
    intro s w hw gs
    rcases mem_prefer.1 hw with hw | hw
    · have htaking : Follows (fun s => (f s).filter (·.stop ≠ s)) R :=
        fun s v hv => hf s v (List.mem_of_mem_filter hv)
      obtain ⟨z, hz, hrest⟩ := htaking.chain ih s w hw gs
      exact .cons hz hrest
    · exact stay hw gs ▸ .refl

end Follows

end Way

namespace Pattern

variable {p : Pattern} {s : Place} {w : Way}

/-- The ways are matches. -/
theorem follows_ways (p : Pattern) : Follows p.ways p.Matches := by
  induction p with
  | empty => exact fun s w hw gs => Follows.stay hw gs
  | text cs =>
    intro s w hw gs
    obtain ⟨t, ht, rfl⟩ := Option.map_eq_some_iff.1 (Option.mem_toList.1 hw)
    exact ⟨ht, rfl⟩
  | one k =>
    intro s w hw gs
    unfold ways at hw
    split at hw
    · cases hw
    · next c rest hrest =>
      split at hw
      · next hc =>
        obtain rfl := List.mem_singleton.1 hw
        exact ⟨c, hc, Place.afterText?_single hrest, rfl⟩
      · cases hw
  | check a =>
    intro s w hw gs
    unfold ways at hw
    split at hw
    · next ha => exact ⟨ha, Follows.stay hw gs⟩
    · cases hw
  | group i p ih =>
    intro s w hw gs
    obtain ⟨v, hv, rfl⟩ := List.mem_map.1 hw
    exact ⟨_, ih s v hv gs, rfl⟩
  | seq p q ihp ihq => exact ihp.chain ihq
  | alt p q ihp ihq =>
    exact fun s w hw gs => (List.mem_append.1 hw).imp (ihp s w · gs) (ihq s w · gs)
  | repeated min max greedy p ih =>
    intro s w hw gs
    cases max with
    | some max =>
      obtain ⟨z, hz, hrest⟩ := ih.turns (ih.atMost greedy (max - min)) min s w hw gs
      exact matches_repeated hz hrest
    | none =>
      have hloop : Follows (fun t => Way.loop greedy p.ways t.rest t) (UpTo none p.Matches) :=
        fun t => ih.loop greedy t.rest t
      obtain ⟨z, hz, hrest⟩ := ih.turns hloop min s w hw gs
      exact matches_repeated hz hrest

/-- A pattern that takes something in every match leaves less of the text. -/
theorem Matches.length_lt {x y : Place × Groups} (hp : p.consumes = true) (h : p.Matches x y) :
    y.1.rest.length < x.1.rest.length := by
  have hle : ∀ {p : Pattern} {x y : Place × Groups}, p.Matches x y →
      y.1.rest.length ≤ x.1.rest.length := by
    intro p x y h
    obtain ⟨cs, hcs, -⟩ := h.leads
    rw [hcs.rest, List.length_append]
    exact Nat.le_add_left ..
  have hlt : ∀ {cs : List Char} {s t : Place}, s.afterText? cs = some t → cs ≠ [] →
      t.rest.length < s.rest.length := by
    intro cs s t h hne
    have := List.length_pos_iff.2 hne
    rw [(Place.Leads.afterText? h).rest, List.length_append]
    omega
  induction p generalizing x y with
  | empty | check => cases hp
  | text cs => exact hlt h.1 (by simpa [consumes] using hp)
  | one k =>
    obtain ⟨c, -, hc, -⟩ := h
    exact hlt hc (List.cons_ne_nil _ _)
  | group i p ih =>
    obtain ⟨gs, h, -⟩ := h
    exact ih (y := (y.1, gs)) hp h
  | seq p q ihp ihq =>
    obtain ⟨z, hxz, hzy⟩ := h
    rcases Bool.or_eq_true_iff.1 hp with hp | hq
    · exact Nat.lt_of_le_of_lt (hle hzy) (ihp hp hxz)
    · exact Nat.lt_of_lt_of_le (ihq hq hzy) (hle hxz)
  | alt p q ihp ihq =>
    obtain ⟨hp, hq⟩ := Bool.and_eq_true_iff.1 hp
    exact h.elim (ihp hp) (ihq hq)
  | repeated min max greedy p ih =>
    obtain ⟨hmin, hp⟩ := Bool.and_eq_true_iff.1 hp
    obtain ⟨count, hcount, -, h⟩ := h
    cases count with
    | zero => exact absurd (Nat.le_zero.1 hcount) (bne_iff_ne.1 hmin)
    | succ count =>
      obtain ⟨z, hxz, hturns⟩ := h
      have hrest : (Pattern.repeated count (some count) greedy p).Matches z y :=
        ⟨count, Nat.le_refl _, fun m hm => by simp [Option.some.inj hm], hturns⟩
      exact Nat.lt_of_le_of_lt (hle hrest) (ih hp hxz)

theorem length_lt_of_mem_ways (hp : p.consumes = true) (hw : w ∈ p.ways s) :
    w.stop.rest.length < s.rest.length :=
  (follows_ways p s w hw []).length_lt hp

end Pattern

/-! ## Their order is Perl's -/

namespace Pattern

variable {p : Pattern} (hp : p.consumes = true)

include hp

theorem loop_ways_eq (greedy : Bool) {fuel fuel' : List Char} {s : Place}
    (h : s.rest.length ≤ fuel.length) (h' : s.rest.length ≤ fuel'.length) :
    Way.loop greedy p.ways fuel s = Way.loop greedy p.ways fuel' s := by
  -- where nothing of the text is left, there is no turn
  have hend : ∀ {fuel : List Char} {s : Place}, s.rest.length = 0 →
      Way.loop greedy p.ways fuel s = [stay s] := by
    intro fuel s hs
    have hnil : p.ways s = [] :=
      List.eq_nil_iff_forall_not_mem.2 fun w hw => by
        have := length_lt_of_mem_ways hp hw
        omega
    cases fuel with
    | nil => rfl
    | cons => simp [Way.loop, hnil, chain, prefer]
  induction fuel generalizing fuel' s with
  | nil =>
    have hs : s.rest.length = 0 := Nat.le_zero.1 h
    rw [hend hs, hend hs]
  | cons c fuel ih =>
    cases fuel' with
    | nil =>
      have hs : s.rest.length = 0 := Nat.le_zero.1 h'
      rw [hend hs, hend hs]
    | cons c' fuel' =>
      simp only [Way.loop]
      congr 1
      refine chain_congr fun v hv => ?_
      have := length_lt_of_mem_ways hp (List.mem_of_mem_filter hv)
      simp only [List.length_cons] at h h'
      exact ih (by omega) (by omega)

/-- No way stops where it starts. -/
theorem filter_ways (s : Place) : (p.ways s).filter (·.stop ≠ s) = p.ways s := by
  refine List.filter_eq_self.2 fun w hw => ?_
  have := length_lt_of_mem_ways hp hw
  simp only [ne_eq, decide_not, Bool.not_eq_true', decide_eq_false_iff_not]
  rintro rfl
  omega

theorem loop_ways (greedy : Bool) (s : Place) : Way.loop greedy p.ways s.rest s =
    prefer greedy (chain (p.ways s) fun t => Way.loop greedy p.ways t.rest t) [stay s] := by
  have hmore : Way.loop greedy p.ways s.rest s = Way.loop greedy p.ways ('a' :: s.rest) s :=
    loop_ways_eq hp greedy (Nat.le_refl _) (Nat.le_succ _)
  rw [hmore, Way.loop, filter_ways hp]
  congr 1
  refine chain_congr fun v hv => ?_
  exact loop_ways_eq hp greedy (Nat.le_of_lt (length_lt_of_mem_ways hp hv)) (Nat.le_refl _)

end Pattern

theorem Pattern.perl_ways : Preference.Perl Pattern.ways where
  empty _ := rfl
  text _ _ := rfl
  one _ _ := rfl
  check _ _ := rfl
  group _ _ _ := rfl
  seq _ _ _ := rfl
  alt _ _ _ := rfl
  turn min max greedy p s := by
    rw [ways, Nat.add_sub_add_right]
    rfl
  spent _ _ _ := rfl
  choice _ _ _ _ := rfl
  turnOfLoop _ _ _ _ := rfl
  loop greedy _ s hp := loop_ways hp greedy s

end JayFrontEnd
