import JayFrontEnd.Proofs.Pattern.Span

/-!
# What a front of threads finds

The threads of a front started at places of the text, and what a thread has yet to do completes a
match that begins where it started. Following a thread keeps to that, and so does a character that
it takes. So whichever way a pattern is searched for, what is found is a match of it, and starts and
stops at places of the text.
-/

namespace JayFrontEnd

namespace Pattern

variable {p : Pattern} {s t u : Place} {least : Nat} {most : Option Nat} {greedy : Bool}

theorem reaches_turn {rest : Nat} {more : Option Nat} (hrest : least ≤ rest + 1)
    (hmore : ∀ m ∈ most, ∃ n ∈ more, max rest n + 1 ≤ max least m) (hturn : p.Reaches s t)
    (h : (repeated rest more greedy p).Reaches t u) :
    (repeated least most greedy p).Reaches s u := by
  obtain ⟨count, hcount, hbound, hturns⟩ := reaches_repeated.1 h
  refine reaches_repeated.2 ⟨count + 1, by omega, fun m hm => ?_, t, hturn, hturns⟩
  obtain ⟨n, hn, hle⟩ := hmore m hm
  exact Nat.le_trans (Nat.succ_le_succ (hbound n hn)) hle

/-- No turn at all. -/
theorem reaches_noTurn : (repeated 0 most greedy p).Reaches s s :=
  reaches_repeated.2 ⟨0, Nat.le_refl _, fun _ _ => Nat.zero_le _, rfl⟩

end Pattern

namespace Task

def toPattern : Task → Pattern
  | pattern p => p
  | again greedy p => .repeated 0 none greedy p

def Reaches (task : Task) : Place → Place → Prop := task.toPattern.Reaches

/-- At the place, to do the later tasks is a way to do the first. -/
def Leads (s : Place) (tasks later : List Task) : Prop :=
  ∀ ⦃u⦄, InTurn Reaches later s u → InTurn Reaches tasks s u

variable {s : Place} {task first second : Task} {rest : List Task}

theorem leads_of_reaches (h : ∀ {t}, first.Reaches s t → task.Reaches s t) :
    Leads s (task :: rest) (first :: rest) := by
  rintro u ⟨t, ht, hu⟩
  exact ⟨t, h ht, hu⟩

theorem leads_skip (h : task.Reaches s s) : Leads s (task :: rest) rest :=
  fun _ hu => ⟨s, h, hu⟩

theorem leads_split
    (h : ∀ {t u}, first.Reaches s t → second.Reaches t u → task.Reaches s u) :
    Leads s (task :: rest) (first :: second :: rest) := by
  rintro v ⟨t, ht, u, hu, hv⟩
  exact ⟨u, h ht hu, hv⟩

end Task

/-- At a place, the thread is on the way to a match that begins where it started. -/
structure Thread.Sound (p : Pattern) (origin s : Place) (t : Thread) : Prop where
  start : ∃ cs, origin.afterText? cs = some t.start
  reaches : ∀ ⦃u⦄, InTurn Task.Reaches t.tasks s u → p.Reaches t.start u

namespace Thread

variable {p : Pattern} {origin s : Place} {t u : Thread} {seen threads : List Thread}

/-- All threads of a front are on the way to a match. -/
def AllSound (p : Pattern) (origin s : Place) (threads : List Thread) : Prop :=
  ∀ t ∈ threads, t.Sound p origin s

theorem Sound.turnTo (h : t.Sound p origin s) {tasks : List Task}
    (hleads : Task.Leads s t.tasks tasks) : Sound p origin s { t with tasks } :=
  ⟨h.start, fun _ hu => h.reaches (hleads hu)⟩

/-- Following a thread goes on to tasks that are a way to do the present ones. -/
theorem follow_sound {holds : Assertion → Bool} (hholds : ∀ a, holds a = true → a.holds s = true)
    {fuel : Nat} (ht : t.Sound p origin s) (hseen : AllSound p origin s seen) :
    AllSound p origin s (t.follow holds fuel seen) := by
  induction fuel generalizing t seen with
  | zero => exact hseen
  | succ fuel ih =>
    have hgo : ∀ {tasks : List Task} {seen : List Thread}, Task.Leads s t.tasks tasks →
        AllSound p origin s seen →
        AllSound p origin s (follow holds fuel { t with tasks } seen) :=
      fun hleads h => ih (ht.turnTo hleads) h
    have hhere : AllSound p origin s (t :: seen) := List.forall_mem_cons.2 ⟨ht, hseen⟩
    have hchoose : ∀ {greedy : Bool} {on off : List Task}, Task.Leads s t.tasks on →
        Task.Leads s t.tasks off → AllSound p origin s
        (if greedy then
          follow holds fuel { t with tasks := off } (follow holds fuel { t with tasks := on }
            (t :: seen))
        else follow holds fuel { t with tasks := on } (follow holds fuel { t with tasks := off }
          (t :: seen))) := by
      intro greedy on off hon hoff
      split
      · exact hgo hoff (hgo hon hhere)
      · exact hgo hon (hgo hoff hhere)
    unfold follow
    split
    · exact hseen
    dsimp only
    split
    · exact hhere
    · next greedy q rest htasks =>
      rw [htasks] at hchoose ⊢
      refine hchoose (Task.leads_split fun h h' => ?_) (Task.leads_skip Pattern.reaches_noTurn)
      exact Pattern.reaches_turn (Nat.zero_le _) nofun h h'
    · next q rest htasks =>
      rw [htasks] at hgo hchoose ⊢
      -- A case for each pattern that a thread may have to do next, repetitions by their bounds.
      split
      case h_1 => exact hgo (Task.leads_skip (Pattern.reaches_empty.2 rfl)) hseen
      case h_2 | h_3 => exact hhere
      case h_4 a =>
        split
        · next ha =>
          exact hgo (Task.leads_skip (Pattern.reaches_check.2 ⟨hholds a ha, rfl⟩)) hhere
        · exact hhere
      case h_5 => exact hgo (Task.leads_of_reaches Pattern.reaches_group.2) hseen
      case h_6 => exact hgo (Task.leads_split fun h h' => Pattern.reaches_seq.2 ⟨_, h, h'⟩) hseen
      case h_7 =>
        exact hchoose (Task.leads_of_reaches fun h => Pattern.reaches_alt.2 (.inl h))
          (Task.leads_of_reaches fun h => Pattern.reaches_alt.2 (.inr h))
      case h_8 => exact hgo (Task.leads_skip Pattern.reaches_noTurn) hseen
      case h_9 max greedy q =>
        refine hchoose (Task.leads_split fun h h' => ?_) (Task.leads_skip Pattern.reaches_noTurn)
        refine Pattern.reaches_turn (Nat.zero_le _) ?_ h h'
        rintro _ ⟨⟩
        exact ⟨max, rfl, by simp⟩
      case h_10 greedy q =>
        refine hchoose ?_ (Task.leads_skip Pattern.reaches_noTurn)
        split <;> exact Task.leads_split fun h h' => Pattern.reaches_turn (Nat.zero_le _) nofun h h'
      case h_11 =>
        exact hgo (Task.leads_split fun h h' => Pattern.reaches_turn (Nat.le_refl _) nofun h h')
          hseen
      case h_12 least most greedy q _ =>
        refine hgo (Task.leads_split fun h h' => ?_) hseen
        refine Pattern.reaches_turn (Nat.le_refl _) ?_ h h'
        rintro m ⟨⟩
        exact ⟨m - 1, rfl, by omega⟩

/-- A character that a thread takes is one that its next task asks for. -/
theorem take?_sound {c : Char} {rest : List Char} (hs : s.rest = c :: rest)
    (ht : t.Sound p origin s) (h : t.take? c = some u) : u.Sound p origin (s.after c rest) := by
  have hafter := Place.afterText?_single hs
  unfold take? at h
  split at h
  · next x xs tasks htasks =>
    split at h
    · next hx =>
      subst hx
      cases h
      refine ⟨ht.start, fun v hv => ht.reaches ?_⟩
      rw [htasks]
      dsimp only at hv
      split at hv
      · next hxs =>
        rw [List.isEmpty_iff.1 hxs]
        exact ⟨_, Pattern.reaches_text.2 hafter, hv⟩
      · obtain ⟨w, hw, hv⟩ := hv
        have hall := Place.afterText?_trans hafter (Pattern.reaches_text.1 hw)
        exact ⟨w, Pattern.reaches_text.2 hall, hv⟩
    · cases h
  · next k tasks htasks =>
    split at h
    · next hc =>
      cases h
      refine ⟨ht.start, fun v hv => ht.reaches ?_⟩
      rw [htasks]
      exact ⟨_, Pattern.reaches_one.2 ⟨c, hc, hafter⟩, hv⟩
    · cases h
  · cases h

end Thread

namespace Pattern

variable {p : Pattern} {origin s : Place} {threads : List Thread} {m : Match}

theorem followAll_sound {holds : Assertion → Bool}
    (hholds : ∀ a, holds a = true → a.holds s = true) (h : Thread.AllSound p origin s threads) :
    Thread.AllSound p origin s (p.followAll holds threads) := by
  have hfold : ∀ {seen : List Thread}, Thread.AllSound p origin s seen →
      Thread.AllSound p origin s
        (threads.foldl (fun seen t => t.follow holds (p.extent * p.extent) seen) seen) := by
    induction threads with
    | nil => exact fun hseen => hseen
    | cons t threads ih =>
      obtain ⟨ht, hrest⟩ := List.forall_mem_cons.1 h
      exact fun hseen => ih hrest (Thread.follow_sound hholds ht hseen)
  intro t ht
  have hmem : t ∈ threads.foldl (fun seen t => t.follow holds (p.extent * p.extent) seen) [] := by
    simpa using (List.mem_filter.1 ht).1
  exact hfold (List.forall_mem_nil _) t hmem

/-- A thread that starts at a place has all of the pattern to do. -/
theorem sound_started {cs : List Char} (h : origin.afterText? cs = some s) :
    Thread.Sound p origin s ⟨s, [.pattern p]⟩ :=
  ⟨⟨cs, h⟩, fun _ hu => inTurn_singleton.1 hu⟩

section Advance

variable {best : Option Match}

theorem found_finds (hthreads : Thread.AllSound p origin s threads)
    (hbest : ∀ m ∈ best, p.Finds origin m)
    (h : (((threads.find? (·.tasks.isEmpty)).map fun t => (⟨t.start, s, []⟩ : Match)) <|> best) =
      some m) : p.Finds origin m := by
  rcases hfind : threads.find? (·.tasks.isEmpty) with _ | t
  · rw [hfind] at h
    exact hbest m h
  · rw [hfind] at h
    cases h
    have hsound := hthreads t (List.mem_of_find?_eq_some hfind)
    have hdone : t.tasks = [] := by simpa using List.find?_some hfind
    exact ⟨hsound.start, hsound.reaches (hdone ▸ rfl)⟩

/-- The threads after a character, and the one that starts there. -/
theorem moved_sound {c : Char} {cs rest : List Char} (hs : origin.afterText? cs = some s)
    (hrest : s.rest = c :: rest) (hthreads : Thread.AllSound p origin s threads)
    (restarts : Bool) : Thread.AllSound p origin (s.after c rest)
      ((threads.takeWhile (!·.tasks.isEmpty)).filterMap (·.take? c) ++
        if restarts then [⟨s.after c rest, [.pattern p]⟩] else []) := by
  intro u hu
  rcases List.mem_append.1 hu with hu | hu
  · obtain ⟨t, ht, htake⟩ := List.mem_filterMap.1 hu
    exact Thread.take?_sound hrest (hthreads t (List.takeWhile_subset _ ht)) htake
  · cases restarts with
    | false => cases hu
    | true =>
      rw [List.mem_singleton.1 hu]
      exact sound_started (Place.afterText?_trans hs (Place.afterText?_single hrest))

/-- The front moves along the text. Its best match so far, and what its threads are on the way to,
are what it can answer with. -/
theorem advance?_finds {matched : Bool} {before : Option Char} {offset : Nat}
    {cs rest : List Char} (hs : origin.afterText? cs = some ⟨before, rest, offset⟩)
    (hthreads : Thread.AllSound p origin ⟨before, rest, offset⟩ threads)
    (hbest : ∀ m ∈ best, p.Finds origin m)
    (h : p.advance? best matched before offset threads rest = some (some m)) :
    p.Finds origin m := by
  induction rest generalizing best matched before offset threads cs with
  | nil =>
    unfold advance? at h
    dsimp only at h
    split at h
    · exact found_finds (followAll_sound (fun _ h => h) hthreads) hbest (Option.some.inj h)
    · exact found_finds hthreads hbest (Option.some.inj h)
  | cons c rest ih =>
    unfold advance? at h
    dsimp only at h
    generalize hknown : (if threads.any fun t => t.check?.any fun a =>
        a.asksAhead && a.holds ⟨before, c :: rest, offset⟩ then
      p.followAll (·.holds ⟨before, c :: rest, offset⟩) threads else threads) = known at h
    have hsound : Thread.AllSound p origin ⟨before, c :: rest, offset⟩ known := by
      rw [← hknown]
      split
      · exact followAll_sound (fun _ h => h) hthreads
      · exact hthreads
    split at h
    · exact found_finds hsound hbest (Option.some.inj h)
    · split at h
      · cases h
      · have hnext := Place.afterText?_trans hs (Place.afterText?_single rfl)
        refine ih hnext (followAll_sound (fun _ ha => (Bool.and_eq_true_iff.1 ha).2) ?_)
          (fun m hm => found_finds hsound hbest hm) h
        exact moved_sound hs rfl hsound _

end Advance

theorem front?_finds {text : List Char} (h : p.front? text = some (some m)) :
    p.Finds (.start text) m := by
  have hstart : (Place.start text).afterText? [] = some (.start text) := rfl
  refine advance?_finds hstart (followAll_sound (fun a ha => (Bool.and_eq_true_iff.1 ha).2) ?_)
    (fun _ h => by cases h) h
  exact List.forall_mem_singleton.2 (sound_started hstart)

/-- What is found is a match of the pattern in the text, whichever way it was searched for. -/
theorem finds_of_search? {text : List Char} (h : p.search? text = some m) :
    p.Finds (.start text) m := by
  unfold search? at h
  split at h
  · split at h
    · exact finds_of_seek? h
    · cases h
    · next m' hm' =>
      have hfinds := front?_finds hm'
      split at h
      · have hmatch := matches_of_matchWith? h
        exact ⟨hmatch.1 ▸ hfinds.start, hmatch.1 ▸ hmatch.2.reaches⟩
      · cases h
        exact hfinds
  · exact finds_of_seek? h

theorem liesIn_search? (p : Pattern) {text : List Char} {m : Match} (h : p.search? text = some m) :
    m.LiesIn text := by
  obtain ⟨⟨as, has⟩, _, _, hmatches⟩ := finds_of_search? h
  obtain ⟨bs, hbs, -⟩ := hmatches.leads
  exact ⟨as, bs, .afterText? has, hbs⟩

end Pattern

end JayFrontEnd
