import JayFrontEnd.Proofs.Pattern.ChoiceTree

/-!
# The search finds the first way

`Pattern.tree` is the tree of choices that `Pattern.run` goes down; its answers are the ways to
match, in their order of preference. A choice of a number at a place leads to the same tree whenever
it is made, so that a search which makes none twice still comes to the first way. This takes a
pattern whose loops go on in every turn.
-/

namespace JayFrontEnd

open Way

/-- Whether every turn of every loop takes something, and bounds are in order. -/
def Pattern.steady : Pattern → Bool
  | empty | text _ | one _ | check _ => true
  | group _ p => p.steady
  | seq p q => p.steady && q.steady
  | alt p q => p.steady && q.steady
  | repeated min (some max) _ p => decide (min ≤ max) && p.steady
  | repeated _ none _ p => p.consumes && p.steady

namespace ChoiceTree

/-- Takes the way. -/
def way (w : Way) : ChoiceTree Way := leaf (some w)

/-- Each way and then what comes next where it stops. -/
def chain (t : ChoiceTree Way) (next : Place → ChoiceTree Way) : ChoiceTree Way :=
  t.bind fun v => (next v.stop).map v.andThen

/-- Any number of turns, each after choice `n`. -/
def loop (n : Nat) (greedy : Bool) (turn : Place → ChoiceTree Way) :
    List Char → Place → ChoiceTree Way
  | [], s => choice n s greedy ((turn s).bind fun _ => leaf none) (way (stay s))
  | _ :: fuel, s => choice n s greedy (chain (turn s) (loop n greedy turn fuel)) (way (stay s))

/-- A number of turns with `width` choices each, the first of them numbered `n`. -/
def exactly (width : Nat) (turn : Nat → Place → ChoiceTree Way) (last : Place → ChoiceTree Way) :
    Nat → Nat → Place → ChoiceTree Way
  | 0, _, s => last s
  | count + 1, n, s => chain (turn n s) (exactly width turn last count (n + width))

/-- At most a number of turns, with a choice before each and `width` choices in it. -/
def atMost (width : Nat) (greedy : Bool) (turn : Nat → Place → ChoiceTree Way) :
    Nat → Nat → Place → ChoiceTree Way
  | 0, _, s => way (stay s)
  | count + 1, n, s =>
    choice n s greedy (chain (turn (n + 1) s) (atMost width greedy turn count (n + 1 + width)))
      (way (stay s))

end ChoiceTree

open ChoiceTree

namespace Pattern

/-- The choices of a pattern at a place. They are numbered from `n` on. -/
def tree : Pattern → Nat → Place → ChoiceTree Way
  | empty, _, s => way (stay s)
  | text cs, _, s => leaf ((s.afterText? cs).map stay)
  | one k, _, s =>
    match s.rest with
    | [] => leaf none
    | c :: rest => if k.contains c then way (stay (s.after c rest)) else leaf none
  | check a, _, s => if a.holds s then way (stay s) else leaf none
  | group i p, n, s => (p.tree n s).map fun w => ⟨w.stop, (i, s.upTo w.stop) :: w.groups⟩
  | seq p q, n, s => chain (p.tree n s) (q.tree (n + p.choices))
  | alt p q, n, s => ChoiceTree.choice n s true (p.tree (n + 1) s) (q.tree (n + 1 + p.choices) s)
  | repeated min (some max) greedy p, n, s =>
    ChoiceTree.exactly p.choices p.tree
      (ChoiceTree.atMost p.choices greedy p.tree (max - min) (n + min * p.choices)) min n s
  | repeated 0 none greedy p, n, s => ChoiceTree.loop n greedy (p.tree (n + 2)) s.rest s
  | repeated (min + 1) none greedy p, n, s =>
    let last := n + min * p.choices
    ChoiceTree.exactly p.choices p.tree
      (fun t => chain (p.tree last t) fun u =>
        ChoiceTree.loop (last + p.choices) greedy (p.tree last) u.rest u)
      min n s

end Pattern

/-! ## The search goes down the tree -/

section Runs

variable {β : Type}

def Runs (r : Pattern.Runner β) (f : Place → ChoiceTree Way) : Prop :=
  ∀ s gs k, r s gs k = (f s).search fun w => k w.stop (w.groups ++ gs)

variable {r r' : Pattern.Runner β} {f g : Place → ChoiceTree Way}

theorem Runs.chain (hr : Runs r f) (hr' : Runs r' g) :
    Runs (fun s gs k => r s gs fun t gs => r' t gs k) fun s => (f s).chain g := by
  intro s gs k
  simp only [hr s, ChoiceTree.chain, search_bind, hr' _, ChoiceTree.map, andThen, search,
    List.append_assoc]

theorem Runs.choice (hr : Runs r f) (n : Nat) (greedy : Bool) :
    Runs (fun s gs k => Pattern.choose n s greedy (r s gs k) (k s gs))
      fun s => ChoiceTree.choice n s greedy (f s) (way (stay s)) := by
  intro s gs k
  dsimp only
  rw [search_choice, hr s]
  rfl

theorem Runs.loop (hr : Runs r f) (n : Nat) (greedy : Bool) (fuel : List Char) :
    Runs (fun s gs k => Pattern.loop n greedy r k fuel s gs)
      (ChoiceTree.loop n greedy f fuel) := by
  induction fuel with
  | nil =>
    have hnone : Runs (fun s gs _ => r s gs fun _ _ tried => (none, tried)) fun s =>
        (f s).bind fun _ => leaf none := by
      intro s gs k
      simp only [hr s, search_bind, search]
    exact hnone.choice n greedy
  | cons c fuel ih => exact (hr.chain ih).choice n greedy

theorem Runs.exactly {width : Nat} {r : Nat → Pattern.Runner β} {f : Nat → Place → ChoiceTree Way}
    (hr : ∀ n, Runs (r n) (f n)) (hr' : Runs r' g) (count n : Nat) :
    Runs (fun s gs k => Pattern.exactly width r (fun t gs => r' t gs k) count n s gs)
      (ChoiceTree.exactly width f g count n) := by
  induction count generalizing n with
  | zero => exact hr'
  | succ count ih => exact (hr n).chain (ih _)

theorem Runs.atMost {width : Nat} {r : Nat → Pattern.Runner β} {f : Nat → Place → ChoiceTree Way}
    (hr : ∀ n, Runs (r n) (f n)) (greedy : Bool) (count n : Nat) :
    Runs (fun s gs k => Pattern.atMost width greedy r k count n s gs)
      (ChoiceTree.atMost width greedy f count n) := by
  induction count generalizing n with
  | zero => exact fun _ _ _ => rfl
  | succ count ih => exact ((hr (n + 1)).chain (ih _)).choice n greedy

theorem Pattern.runs_tree {p : Pattern} (hp : p.steady = true) (n : Nat) :
    Runs (p.run n : Runner β) (p.tree n) := by
  induction p generalizing n with
  | empty => exact fun _ _ _ => rfl
  | text cs =>
    intro s gs k
    funext tried
    unfold run tree
    cases s.afterText? cs <;> rfl
  | one K =>
    rintro ⟨before, rest, offset⟩ gs k
    funext tried
    cases rest with
    | nil => rfl
    | cons c rest =>
      unfold run tree
      dsimp only
      split <;> rfl
  | check a =>
    intro s gs k
    funext tried
    unfold run tree
    split <;> rfl
  | group i p ih =>
    intro s gs k
    simp only [run, tree, ih hp n s, ChoiceTree.map, search_bind, search, List.cons_append]
  | seq p q ihp ihq =>
    obtain ⟨hp, hq⟩ := Bool.and_eq_true_iff.1 hp
    exact (ihp hp n).chain (ihq hq _)
  | alt p q ihp ihq =>
    obtain ⟨hp, hq⟩ := Bool.and_eq_true_iff.1 hp
    intro s gs k
    rw [tree, search_choice, ← ihp hp _ s, ← ihq hq _ s]
    rfl
  | repeated min max greedy p ih =>
    cases max with
    | some max =>
      obtain ⟨-, hp⟩ := Bool.and_eq_true_iff.1 hp
      exact .exactly (ih hp) (.atMost (ih hp) greedy _ _) min n
    | none =>
      obtain ⟨hconsumes, hbody⟩ := Bool.and_eq_true_iff.1 hp
      cases min with
      | zero =>
        intro s gs k
        funext tried
        rw [run, if_pos hconsumes]
        exact congrFun ((ih hbody _).loop n greedy s.rest s gs k) tried
      | succ min =>
        have hloop (m m' : Nat) : Runs (fun s gs k => Pattern.loop m greedy (p.run m' : Runner β) k
            s.rest s gs) fun s => ChoiceTree.loop m greedy (p.tree m') s.rest s :=
          fun s => (ih hbody m').loop m greedy s.rest s
        exact .exactly (ih hbody) ((ih hbody _).chain (hloop _ _)) min n

end Runs

/-! ## The answers are the ways -/

namespace ChoiceTree

theorem answers_chain (t : ChoiceTree Way) (next : Place → ChoiceTree Way) :
    (t.chain next).answers = Way.chain t.answers fun s => (next s).answers := by
  simp only [chain, answers_bind, answers_map, Way.chain]

theorem answers_choice (n : Nat) (s : Place) (greedy : Bool) (on off : ChoiceTree Way) :
    (choice n s greedy on off).answers = prefer greedy on.answers off.answers := by
  cases greedy <;> rfl

theorem answers_exactly {width : Nat} {turn : Nat → Place → ChoiceTree Way}
    {last : Place → ChoiceTree Way} {ways ways' : Place → List Way}
    (hturn : ∀ n s, (turn n s).answers = ways s) (hlast : ∀ s, (last s).answers = ways' s)
    (count n : Nat) (s : Place) :
    (ChoiceTree.exactly width turn last count n s).answers = turns ways ways' count s := by
  induction count generalizing n s with
  | zero => exact hlast s
  | succ count ih => simp only [ChoiceTree.exactly, answers_chain, hturn, ih, turns]

theorem answers_atMost {width : Nat} {greedy : Bool} {turn : Nat → Place → ChoiceTree Way}
    {ways : Place → List Way} (hturn : ∀ n s, (turn n s).answers = ways s) (count n : Nat)
    (s : Place) :
    (ChoiceTree.atMost width greedy turn count n s).answers = Way.atMost greedy ways count s := by
  induction count generalizing n s with
  | zero => rfl
  | succ count ih =>
    simp only [ChoiceTree.atMost, answers_choice, answers_chain, hturn, ih, Way.atMost]
    rfl

theorem answers_loop {n : Nat} {greedy : Bool} {turn : Place → ChoiceTree Way}
    {ways : Place → List Way} (hturn : ∀ s, (turn s).answers = ways s)
    (hways : ∀ s, (ways s).filter (·.stop ≠ s) = ways s) (fuel : List Char) (s : Place) :
    (ChoiceTree.loop n greedy turn fuel s).answers = Way.loop greedy ways fuel s := by
  induction fuel generalizing s with
  | nil =>
    have hnone : ((turn s).bind fun _ => (leaf none : ChoiceTree Way)).answers = [] := by
      rw [answers_bind]
      exact List.flatMap_eq_nil_iff.2 fun _ _ => rfl
    rw [ChoiceTree.loop, answers_choice, hnone]
    cases greedy <;> rfl
  | cons c fuel ih =>
    simp only [ChoiceTree.loop, answers_choice, answers_chain, hturn, ih, Way.loop, hways]
    rfl

end ChoiceTree

theorem Pattern.answers_tree {p : Pattern} (hp : p.steady = true) (n : Nat) (s : Place) :
    (p.tree n s).answers = p.ways s := by
  induction p generalizing n s with
  | empty => rfl
  | text cs => rfl
  | one K =>
    obtain ⟨before, rest, offset⟩ := s
    cases rest with
    | nil => rfl
    | cons c rest =>
      rw [tree, ways]
      dsimp only
      split <;> rfl
  | check a =>
    rw [tree, ways]
    split <;> rfl
  | group i p ih => rw [tree, answers_map, ih hp, ways]
  | seq p q ihp ihq =>
    obtain ⟨hp, hq⟩ := Bool.and_eq_true_iff.1 hp
    simp only [tree, answers_chain, ihp hp, ihq hq, ways]
  | alt p q ihp ihq =>
    obtain ⟨hp, hq⟩ := Bool.and_eq_true_iff.1 hp
    rw [tree, answers_choice, ihp hp, ihq hq]
    rfl
  | repeated min max greedy p ih =>
    cases max with
    | some max =>
      obtain ⟨-, hp⟩ := Bool.and_eq_true_iff.1 hp
      exact answers_exactly (ih hp) (answers_atMost (ih hp) _ _) min n s
    | none =>
      obtain ⟨hconsumes, hbody⟩ := Bool.and_eq_true_iff.1 hp
      have hloop (m m' : Nat) (s : Place) :
          (ChoiceTree.loop m greedy (p.tree m') s.rest s).answers =
            Way.loop greedy p.ways s.rest s :=
        answers_loop (ih hbody m') (filter_ways hconsumes) s.rest s
      cases min with
      | zero => exact hloop n (n + 2) s
      | succ min =>
        have hlast (t : Place) : ((p.tree (n + min * p.choices) t).chain fun u =>
            ChoiceTree.loop (n + min * p.choices + p.choices) greedy (p.tree (n + min * p.choices))
              u.rest u).answers =
            Way.chain (p.ways t) fun u => Way.loop greedy p.ways u.rest u := by
          simp only [answers_chain, ih hbody, hloop]
        rw [tree, ways, answers_exactly (ih hbody) hlast]
        exact (turns_succ ..).symm

/-! ## The same choice leads to the same places -/

namespace ChoiceTree

section Keeps

variable {T T' : Nat → Place → ChoiceTree Place} {N N' : Set Nat} {s s' : Place}

theorem Keeps.mono {t : ChoiceTree Place} (h : t.Keeps T N s) (hN : N ⊆ N')
    (hT : ∀ n ∈ N, T' n = T n) : t.Keeps T' N' s := by
  induction t with
  | leaf => trivial
  | node n x t u iht ihu =>
    obtain ⟨hn, hx, hleads, ht, hu⟩ := h
    exact ⟨hN hn, hx, hT n hn ▸ hleads, iht ht, ihu hu⟩

/-- Choices made from a later place on. -/
theorem Keeps.since {t : ChoiceTree Place} (h : t.Keeps T N s') (hs : s.Precedes s') :
    t.Keeps T N s := by
  induction t with
  | leaf => trivial
  | node n x t u iht ihu =>
    obtain ⟨hn, hx, hleads, ht, hu⟩ := h
    exact ⟨hn, hs.trans hx, hleads, iht ht, ihu hu⟩

theorem Keeps.bind {t : ChoiceTree Place} {f : Place → ChoiceTree Place} (h : t.Keeps T N s)
    (hN : N ⊆ N') (hT : ∀ n ∈ N, ∀ x, T' n x = (T n x).bind f)
    (hf : ∀ x ∈ t.answers, (f x).Keeps T' N' s) : (t.bind f).Keeps T' N' s := by
  induction t with
  | leaf answer =>
    cases answer with
    | none => trivial
    | some x => exact hf x (.head _)
  | node n x t u iht ihu =>
    obtain ⟨hn, hx, hleads, ht, hu⟩ := h
    refine ⟨hN hn, hx, ?_, iht ht fun y hy => hf y (List.mem_append_left _ hy),
      ihu hu fun y hy => hf y (List.mem_append_right _ hy)⟩
    rw [hT n hn, hleads]
    rfl

theorem Keeps.choice {n : Nat} {greedy : Bool} {on off : ChoiceTree Place}
    (hon : on.Keeps T N s) (hoff : off.Keeps T N s) (hn : n ∈ N)
    (hleads : T n s = ChoiceTree.choice n s greedy on off) :
    (ChoiceTree.choice n s greedy on off).Keeps T N s := by
  cases greedy with
  | true => exact ⟨hn, .refl s, hleads, hon, hoff⟩
  | false => exact ⟨hn, .refl s, hleads, hoff, hon⟩

end Keeps

/-- The places where the ways stop. -/
def stops (t : ChoiceTree Way) : ChoiceTree Place := t.map (·.stop)

theorem answers_stops (t : ChoiceTree Way) : t.stops.answers = t.answers.map (·.stop) :=
  answers_map t _

theorem stops_chain (t : ChoiceTree Way) (next : Place → ChoiceTree Way) :
    (t.chain next).stops = t.stops.bind fun s => (next s).stops := by
  simp only [stops, map, chain, bind_assoc, bind]
  rfl

theorem stops_choice (n : Nat) (s : Place) (greedy : Bool) (on off : ChoiceTree Way) :
    (choice n s greedy on off).stops = choice n s greedy on.stops off.stops :=
  bind_choice ..

/-- Ways go on, and a choice with one of the numbers leads to the same places whenever it is
made. -/
structure Stable (f : Place → ChoiceTree Way) (lo hi : Nat) : Prop where
  precedes : ∀ s, ∀ w ∈ (f s).answers, s.Precedes w.stop
  leads : ∃ T, ∀ s, (f s).stops.Keeps T (Set.Ico lo hi) s

namespace Stable

variable {f g on off : Place → ChoiceTree Way} {lo mid hi n : Nat} {greedy : Bool}

theorem of_leaf (hf : ∀ s, ∃ answer, f s = .leaf answer)
    (h : ∀ s, ∀ w ∈ (f s).answers, s.Precedes w.stop) : Stable f lo hi where
  precedes := h
  leads := by
    refine ⟨fun _ _ => .leaf none, fun s => ?_⟩
    obtain ⟨answer, hanswer⟩ := hf s
    rw [hanswer]
    cases answer <;> trivial

theorem stay (lo hi : Nat) : Stable (fun s => way (Way.stay s)) lo hi :=
  .of_leaf (fun _ => ⟨_, rfl⟩) fun s _ hw => List.mem_singleton.1 hw ▸ .refl s

/-- What comes next has numbers of its own. -/
theorem chain (hf : Stable f lo mid) (hg : Stable g mid hi) (hlo : lo ≤ mid) (hhi : mid ≤ hi) :
    Stable (fun s => (f s).chain g) lo hi where
  precedes s w hw := by
    rw [answers_chain] at hw
    obtain ⟨v, hv, u, hu, rfl⟩ := mem_chain.1 hw
    exact (hf.precedes s v hv).trans (hg.precedes v.stop u hu)
  leads := by
    obtain ⟨T, hT⟩ := hf.leads
    obtain ⟨T', hT'⟩ := hg.leads
    refine ⟨fun n s => if n < mid then (T n s).bind fun t => (g t).stops else T' n s, fun s => ?_⟩
    rw [stops_chain]
    refine (hT s).bind (Set.Ico_subset_Ico_right hhi) (fun n hn _ => if_pos hn.2) fun t ht => ?_
    rw [answers_stops] at ht
    obtain ⟨w, hw, rfl⟩ := List.mem_map.1 ht
    refine ((hT' w.stop).since (hf.precedes s w hw)).mono (Set.Ico_subset_Ico_left hlo) ?_
    exact fun n hn => funext fun _ => if_neg (Nat.not_lt.2 hn.1)

theorem choice (hon : Stable on (n + 1) mid) (hoff : Stable off mid hi) (hlo : n < mid)
    (hhi : mid ≤ hi) (greedy : Bool) :
    Stable (fun s => ChoiceTree.choice n s greedy (on s) (off s)) n hi where
  precedes s w hw := by
    rw [answers_choice] at hw
    exact (mem_prefer.1 hw).elim (hon.precedes s w) (hoff.precedes s w)
  leads := by
    obtain ⟨T, hT⟩ := hon.leads
    obtain ⟨T', hT'⟩ := hoff.leads
    refine ⟨fun m s => if m = n then (ChoiceTree.choice n s greedy (on s) (off s)).stops
      else if m < mid then T m s else T' m s, fun s => ?_⟩
    rw [stops_choice]
    refine .choice ((hT s).mono ?_ fun m hm => ?_) ((hT' s).mono ?_ fun m hm => ?_) ?_ ?_
    · exact Set.Ico_subset_Ico (Nat.le_succ n) hhi
    · funext x
      rw [if_neg (Nat.ne_of_gt hm.1), if_pos hm.2]
    · exact Set.Ico_subset_Ico_left (Nat.le_of_lt hlo)
    · funext x
      rw [if_neg (Nat.ne_of_gt (Nat.lt_of_lt_of_le hlo hm.1)), if_neg (Nat.not_lt.2 hm.1)]
    · exact ⟨Nat.le_refl n, Nat.lt_of_lt_of_le hlo hhi⟩
    · rw [if_pos rfl, stops_choice]

theorem exactly {width : Nat} {f : Nat → Place → ChoiceTree Way}
    (hf : ∀ n, Stable (f n) n (n + width)) {count n : Nat} (hhi : n + count * width ≤ hi)
    (hg : Stable g (n + count * width) hi) :
    Stable (ChoiceTree.exactly width f g count n) n hi := by
  induction count generalizing n with
  | zero =>
    rw [Nat.zero_mul, Nat.add_zero] at hg
    exact hg
  | succ count ih =>
    have hn : n + (count + 1) * width = n + width + count * width := by
      rw [Nat.add_one_mul]
      omega
    rw [hn] at hhi hg
    exact (hf n).chain (ih hhi hg) (Nat.le_add_right ..) (by omega)

theorem atMost {width : Nat} {f : Nat → Place → ChoiceTree Way}
    (hf : ∀ n, Stable (f n) n (n + width)) (greedy : Bool) (count n : Nat) :
    Stable (ChoiceTree.atMost width greedy f count n) n (n + count * (width + 1)) := by
  induction count generalizing n with
  | zero => exact stay ..
  | succ count ih =>
    have hn : n + (count + 1) * (width + 1) = n + 1 + width + count * (width + 1) := by
      rw [Nat.add_one_mul]
      omega
    rw [hn]
    refine ((hf (n + 1)).chain (ih (n + 1 + width)) ?_ ?_).choice (stay _ _) ?_ (Nat.le_refl _) _
    all_goals omega

end Stable

section Loop

variable {f : Place → ChoiceTree Way} {n : Nat} {greedy : Bool} {s : Place}
  (hf : ∀ s, ∀ w ∈ (f s).answers, w.stop.rest.length < s.rest.length)

include hf

theorem loop_eq {fuel fuel' : List Char} (h : s.rest.length ≤ fuel.length)
    (h' : s.rest.length ≤ fuel'.length) :
    ChoiceTree.loop n greedy f fuel s = ChoiceTree.loop n greedy f fuel' s := by
  -- where nothing of the text is left, nothing comes after a turn
  have hend {s : Place} (hs : s.rest.length = 0) (k k' : Way → ChoiceTree Way) :
      (f s).bind k = (f s).bind k' :=
    bind_congr _ fun w hw => absurd (hf s w hw) (by omega)
  induction fuel generalizing fuel' s with
  | nil =>
    cases fuel' with
    | nil => rfl
    | cons c' fuel' =>
      exact congrArg (ChoiceTree.choice n s greedy · _) (hend (Nat.le_zero.1 h) _ _)
  | cons c fuel ih =>
    cases fuel' with
    | nil => exact congrArg (ChoiceTree.choice n s greedy · _) (hend (Nat.le_zero.1 h') _ _)
    | cons c' fuel' =>
      refine congrArg (ChoiceTree.choice n s greedy · _) (bind_congr _ fun w hw => ?_)
      have := hf s w hw
      rw [List.length_cons] at h h'
      rw [ih (by omega) (by omega : _ ≤ fuel'.length)]

theorem loop_unroll : ChoiceTree.loop n greedy f s.rest s =
    ChoiceTree.choice n s greedy ((f s).chain fun t => ChoiceTree.loop n greedy f t.rest t)
      (way (stay s)) := by
  have hmore : ChoiceTree.loop n greedy f s.rest s =
      ChoiceTree.loop n greedy f ('a' :: s.rest) s :=
    loop_eq hf (Nat.le_refl _) (Nat.le_succ _)
  rw [hmore, ChoiceTree.loop]
  refine congrArg (ChoiceTree.choice n s greedy · _) (bind_congr _ fun w hw => ?_)
  rw [loop_eq hf (Nat.le_of_lt (hf s w hw)) (Nat.le_refl _)]

/-- A loop, and a turn before it that has the numbers of its turns. -/
theorem Stable.loop {lo hi lo' hi' : Nat} (hstable : Stable f lo hi) (hn : n ∉ Set.Ico lo hi)
    (hmem : n ∈ Set.Ico lo' hi') (hsub : Set.Ico lo hi ⊆ Set.Ico lo' hi') :
    Stable (fun s => ChoiceTree.loop n greedy f s.rest s) lo' hi' ∧
      Stable (fun s => (f s).chain fun t => ChoiceTree.loop n greedy f t.rest t) lo' hi' := by
  let on (s : Place) : ChoiceTree Way := ChoiceTree.loop n greedy f s.rest s
  have hon (s : Place) : on s = .choice n s greedy ((f s).chain on) (way (Way.stay s)) :=
    loop_unroll hf
  have hchain {s : Place} (h : ∀ t, t.rest.length < s.rest.length →
      ∀ w ∈ (on t).answers, t.Precedes w.stop) :
      ∀ w ∈ ((f s).chain on).answers, s.Precedes w.stop := by
    intro w hw
    rw [answers_chain] at hw
    obtain ⟨v, hv, u, hu, rfl⟩ := mem_chain.1 hw
    exact (hstable.precedes s v hv).trans (h v.stop (hf s v hv) u hu)
  have hprecedes (s : Place) : ∀ w ∈ (on s).answers, s.Precedes w.stop := by
    induction hlength : s.rest.length using Nat.strong_induction_on generalizing s with
    | _ length ih =>
      intro w hw
      rw [hon, answers_choice] at hw
      rcases mem_prefer.1 hw with hw | hw
      · exact hchain (fun t ht => ih _ (hlength ▸ ht) t rfl) w hw
      · rw [List.mem_singleton.1 hw]
        exact .refl s
  obtain ⟨T, hT⟩ := hstable.leads
  let T' (m : Nat) (s : Place) : ChoiceTree Place :=
    if m = n then (on s).stops else (T m s).bind fun t => (on t).stops
  have hturn {s : Place}
      (h : ∀ t, t.rest.length < s.rest.length → (on t).stops.Keeps T' (Set.Ico lo' hi') t) :
      ((f s).chain on).stops.Keeps T' (Set.Ico lo' hi') s := by
    rw [stops_chain]
    refine (hT s).bind hsub (fun m hm _ => if_neg (ne_of_mem_of_not_mem hm hn)) fun t ht => ?_
    rw [answers_stops] at ht
    obtain ⟨w, hw, rfl⟩ := List.mem_map.1 ht
    exact (h w.stop (hf s w hw)).since (hstable.precedes s w hw)
  have hkeeps (s : Place) : (on s).stops.Keeps T' (Set.Ico lo' hi') s := by
    induction hlength : s.rest.length using Nat.strong_induction_on generalizing s with
    | _ length ih =>
      have hstops : (on s).stops =
          .choice n s greedy ((f s).chain on).stops (way (Way.stay s)).stops := by
        rw [hon, stops_choice]
      rw [hstops]
      refine .choice (hturn fun t ht => ih _ (hlength ▸ ht) t rfl) trivial hmem ?_
      exact (if_pos rfl).trans hstops
  exact ⟨⟨hprecedes, T', hkeeps⟩, fun s => hchain fun t _ => hprecedes t, T',
    fun s => hturn fun t _ => hkeeps t⟩

end Loop

end ChoiceTree

namespace Pattern

variable {p : Pattern} {s : Place}

theorem precedes_of_mem_ways {w : Way} (hw : w ∈ p.ways s) : s.Precedes w.stop := by
  obtain ⟨cs, hcs, -⟩ := (follows_ways p s w hw []).afterText?
  exact ⟨cs, hcs⟩

theorem stable_tree (hp : p.steady = true) (n : Nat) : Stable (p.tree n) n (n + p.choices) := by
  have hprecedes {p : Pattern} (hp : p.steady = true) (n : Nat) (s : Place) :
      ∀ w ∈ (p.tree n s).answers, s.Precedes w.stop :=
    fun w hw => precedes_of_mem_ways (answers_tree hp n s ▸ hw)
  induction p generalizing n with
  | empty => exact .stay ..
  | text cs => exact .of_leaf (fun s => ⟨_, rfl⟩) (hprecedes hp n)
  | one K =>
    refine .of_leaf (fun ⟨before, rest, offset⟩ => ?_) (hprecedes hp n)
    cases rest with
    | nil => exact ⟨none, rfl⟩
    | cons c rest =>
      rw [tree]
      dsimp only
      split <;> exact ⟨_, rfl⟩
  | check a =>
    refine .of_leaf (fun s => ?_) (hprecedes hp n)
    rw [tree]
    split <;> exact ⟨_, rfl⟩
  | group i p ih =>
    have hstops (s : Place) : ((group i p).tree n s).stops = (p.tree n s).stops := by
      simp only [tree, stops, ChoiceTree.map, bind_assoc, ChoiceTree.bind]
    obtain ⟨T, hT⟩ := (ih hp n).leads
    exact ⟨hprecedes hp n, T, fun s => hstops s ▸ hT s⟩
  | seq p q ihp ihq =>
    obtain ⟨hp, hq⟩ := Bool.and_eq_true_iff.1 hp
    rw [choices, ← Nat.add_assoc]
    exact (ihp hp n).chain (ihq hq _) (Nat.le_add_right ..) (Nat.le_add_right ..)
  | alt p q ihp ihq =>
    obtain ⟨hp, hq⟩ := Bool.and_eq_true_iff.1 hp
    rw [choices, ← Nat.add_assoc, ← Nat.add_assoc]
    exact (ihp hp (n + 1)).choice (ihq hq _) (by omega) (Nat.le_add_right ..) true
  | repeated min max greedy p ih =>
    cases max with
    | some max =>
      obtain ⟨hmin, hp⟩ := Bool.and_eq_true_iff.1 hp
      have hcount : n + (repeated min (some max) greedy p).choices =
          n + min * p.choices + (max - min) * (p.choices + 1) := by
        obtain ⟨more, rfl⟩ := Nat.exists_eq_add_of_le (of_decide_eq_true hmin)
        simp only [choices, Nat.add_sub_cancel_left, Nat.add_mul, Nat.mul_add, Nat.mul_one]
        omega
      rw [hcount]
      exact .exactly (ih hp) (Nat.le_add_right ..) (.atMost (ih hp) greedy _ _)
    | none =>
      obtain ⟨hconsumes, hbody⟩ := Bool.and_eq_true_iff.1 hp
      have hshort (m : Nat) (s : Place) :
          ∀ w ∈ (p.tree m s).answers, w.stop.rest.length < s.rest.length :=
        fun w hw => length_lt_of_mem_ways hconsumes (answers_tree hbody m s ▸ hw)
      cases min with
      | zero =>
        have hcount : (repeated 0 none greedy p).choices = p.choices + 2 :=
          congrArg (· + 2) (Nat.one_mul _)
        rw [hcount]
        refine (Stable.loop (hshort _) (ih hbody (n + 2)) ?_ ?_ ?_).1
        · exact fun h => absurd h.1 (by omega)
        · exact ⟨Nat.le_refl n, by omega⟩
        · exact Set.Ico_subset_Ico (by omega) (by omega)
      | succ min =>
        have hcount : n + (repeated (min + 1) none greedy p).choices =
            n + min * p.choices + (p.choices + 2) := by
          simp only [choices, Nat.max_eq_max, Nat.le_add_left, Nat.max_eq_left, Nat.add_mul,
            Nat.one_mul]
          omega
        rw [hcount]
        refine .exactly (ih hbody) (Nat.le_add_right ..) ?_
        refine (Stable.loop (hshort _) (ih hbody _) ?_ ?_ ?_).2
        · exact fun h => Nat.lt_irrefl _ h.2
        · exact ⟨Nat.le_add_right .., by omega⟩
        · exact Set.Ico_subset_Ico_right (by omega)

end Pattern

/-! ## The search finds the first way -/

namespace Pattern

variable {p : Pattern}

/-- At a place the search finds what is preferred there. -/
theorem matchAt?_eq (hp : p.steady = true) (s : Place) :
    p.matchAt? s = (p.ways s).head?.map fun w => ⟨s, w.stop, w.groups⟩ := by
  let t : ChoiceTree Match := (p.tree 0 s).map fun w => ⟨s, w.stop, w.groups⟩
  have hrun : p.matchAt? s = (t.find { origin := s.offset, width := p.choices }).1 := by
    simp only [matchAt?, matchWith?, if_true, (runs_tree hp 0) s, t, find, ChoiceTree.map,
      search_bind, search, List.append_nil]
  have hkeeps : ∃ T, (t.map (·.stop)).Keeps T (Set.Iio p.choices) s := by
    obtain ⟨T, hT⟩ := (stable_tree hp 0).leads
    have hstops : t.map (·.stop) = (p.tree 0 s).stops := by
      simp only [t, stops, ChoiceTree.map, bind_assoc, ChoiceTree.bind]
    rw [hstops]
    exact ⟨T, (hT s).mono (fun n hn => Nat.zero_add p.choices ▸ hn.2) fun _ _ => rfl⟩
  obtain ⟨T, hT⟩ := hkeeps
  rw [hrun, (finds_of_keeps hT (Tried.settled_start T p.choices s t.size)).answer, answers_map,
    answers_tree hp, List.head?_map]

theorem loopsOnChecks_of_steady (hp : p.steady = true) : p.loopsOnChecks = false := by
  induction p with
  | empty | text | one | check => rfl
  | group i p ih => exact ih hp
  | seq p q ihp ihq | alt p q ihp ihq =>
    obtain ⟨hp, hq⟩ := Bool.and_eq_true_iff.1 hp
    simp only [loopsOnChecks, ihp hp, ihq hq, Bool.or_self]
  | repeated min max greedy p ih =>
    cases max with
    | some max =>
      obtain ⟨-, hp⟩ := Bool.and_eq_true_iff.1 hp
      simp only [loopsOnChecks, ih hp, Option.isNone_some, Bool.false_and, Bool.or_self]
    | none =>
      obtain ⟨hconsumes, hp⟩ := Bool.and_eq_true_iff.1 hp
      simp only [loopsOnChecks, ih hp, hconsumes, Bool.not_true, Bool.and_false, Bool.false_and,
        Bool.or_self]

end Pattern

/-- Where there is no way to match, a search goes on to the next place. -/
theorem LeftmostFirst.next {ways : Place → List Way} {s : Place} {c : Char} {rest : List Char}
    {answer : Option Match} (hrest : s.rest = c :: rest) (hnone : ways s = [])
    (h : LeftmostFirst ways (s.after c rest) answer) : LeftmostFirst ways s answer := by
  have hafter (cs : List Char) : s.afterText? (c :: cs) = (s.after c rest).afterText? cs := by
    simp [Place.afterText?, hrest]
  -- every place but the first comes after the character
  have hcons {cs : List Char} {t : Place} (ht : s.afterText? cs = some t) :
      cs = [] ∧ t = s ∨ ∃ ds, cs = c :: ds ∧ (s.after c rest).afterText? ds = some t := by
    cases cs with
    | nil => exact .inl ⟨rfl, (Option.some.inj ht).symm⟩
    | cons d ds =>
      unfold Place.afterText? at ht
      rw [hrest] at ht
      dsimp only at ht
      split at ht
      · next hd => exact .inr ⟨ds, hd ▸ rfl, ht⟩
      · cases ht
  cases h with
  | @found before t w hbefore hearlier hw =>
    refine .found ((hafter before).trans hbefore) (fun earlier u hprefix hne hu => ?_) hw
    rcases hcons hu with ⟨-, rfl⟩ | ⟨ds, rfl, hds⟩
    · exact hnone
    · exact hearlier ds u (List.cons_prefix_cons.1 hprefix).2 (fun h => hne (h ▸ rfl)) hds
  | missing hall =>
    refine .missing fun before u hu => ?_
    rcases hcons hu with ⟨-, rfl⟩ | ⟨ds, -, hds⟩
    · exact hnone
    · exact hall ds u hds

theorem LeftmostFirst.here {ways : Place → List Way} {s : Place} {w : Way}
    (h : (ways s).head? = some w) : LeftmostFirst ways s (some ⟨s, w.stop, w.groups⟩) := by
  have hstart : s.afterText? [] = some s := rfl
  exact .found hstart (fun _ _ hprefix hne => absurd (List.prefix_nil.1 hprefix) hne) h

theorem LeftmostFirst.nothing {ways : Place → List Way} {s : Place} (hrest : s.rest = [])
    (h : ways s = []) : LeftmostFirst ways s none := by
  refine .missing fun before t ht => ?_
  cases before with
  | nil =>
    cases ht
    exact h
  | cons c cs => simp [Place.afterText?, hrest] at ht

namespace Pattern

variable {p : Pattern}

theorem leftmostFirst_searchFrom? (hp : p.steady = true) (before : Option Char)
    (rest : List Char) (offset : Nat) :
    LeftmostFirst p.ways ⟨before, rest, offset⟩ (p.searchFrom? before offset rest) := by
  induction rest generalizing before offset with
  | nil =>
    rw [searchFrom?, matchAt?_eq hp]
    cases hways : p.ways ⟨before, [], offset⟩ with
    | nil => exact .nothing rfl hways
    | cons w ws => exact .here (hways ▸ rfl)
  | cons c rest ih =>
    rw [searchFrom?, matchAt?_eq hp]
    cases hways : p.ways ⟨before, c :: rest, offset⟩ with
    | nil => exact .next rfl hways (ih (some c) (offset + c.utf8Size))
    | cons w ws => exact .here (hways ▸ rfl)

/-- The search of a text finds the match that Perl would. -/
theorem leftmostFirst_search? (hp : p.steady = true) (text : List Char) :
    LeftmostFirst p.ways (.start text) (p.search? text) := by
  have hseek : p.search? text = p.seek? text := by
    simp [search?, loopsOnChecks_of_steady hp]
  rw [hseek, seek?_eq_searchFrom?]
  exact leftmostFirst_searchFrom? hp none text 0

end Pattern

end JayFrontEnd
