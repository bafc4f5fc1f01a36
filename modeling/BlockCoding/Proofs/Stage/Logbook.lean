import BlockCoding.Proofs.Stage.Band
import BlockCoding.Proofs.Stage.Spacing
import Mathlib.Algebra.Group.Nat.Defs

/-!
# Proofs/Stage/Logbook — what a flight keeps count of, and what a failing tick leaves alone

Between the counting of a tick and its end lie four ways to fail.  `Outcome` lists how a tick can
end, each with the parts of the flight that it has written by then.  From it follows what one tick
does (`Outcome.closes`) and, tick by tick, what a whole run has in its logbook: its ticks, its
stars, and its trail (`Outcome.logbook`, `logbook_kept`).  As there are five stars at most, only the
ticks can become too many to be counted (`after?_of_ongoing`).
-/

namespace BlockCoding

/-- The total that the catch of a star tells. -/
def Event.starTotal? : Event → Option Nat
  | .starCaught total => some total
  | _ => none

/-- Events that tell neither of a star nor of a new sky. -/
def Starless (events : List Event) : Prop :=
  ∀ event ∈ events, event.starTotal? = none ∧ event ≠ .layoutRerolled

theorem Starless.starCaught_notMem {events : List Event} (h : Starless events) (total : ℕ) :
    .starCaught total ∉ events := fun hmem => Option.some_ne_none _ (h _ hmem).1

theorem Starless.starCaught_mem_append_iff {events later : List Event} (h : Starless events)
    (total : ℕ) : .starCaught total ∈ events ++ later ↔ .starCaught total ∈ later := by
  rw [List.mem_append, or_iff_right (h.starCaught_notMem total)]

theorem Starless.layoutRerolled_notMem {events : List Event} (h : Starless events) :
    .layoutRerolled ∉ events := fun hmem => (h _ hmem).2 rfl

theorem Starless.filterMap_eq_nil {events : List Event} (h : Starless events) :
    events.filterMap Event.starTotal? = [] :=
  List.filterMap_eq_nil_iff.mpr fun event hmem => (h event hmem).1

/-- Whether a tick commits the position it comes to: it does unless it fails. -/
def Tick.commits {τ σ : Type} (t : Tick τ σ) : Bool :=
  match t.verdict with
  | some (.fail _) => false
  | _ => true

/-- A sky has three storms. -/
theorem Sky.length_hazards_roll {σ : Type} [RandomSource σ] (anchor : Point) (source : σ) :
    (roll anchor source).1.hazards.length = 3 := by
  rw [roll, Spread.placeOne_eq]
  dsimp only
  rw [List.length_map]
  exact (Spread.place_oneByOne (R := fun _ _ => True) Point.distance spacing (sample 15 70)
    (fun _ _ => trivial) hazardCount _ _).1

namespace Flight

variable {σ : Type} {f : Flight}

/-! ## The logbook -/

/-- The totals of as many stars: they are counted from 1 on, one by one. -/
def totals (stars : ℕ) : List ℕ := (List.range stars).map (· + 1)

/-- **What a flight has in its logbook** after some ticks: their number, the totals of the stars it
has caught, and the last ten positions it has come to, the newest first. -/
structure Logbook (ticks : List (Tick Flight σ)) (f : Flight) : Prop where
  ticks_eq : f.ticks = ticks.length
  totals_eq : (toldBy ticks).filterMap Event.starTotal? = totals f.stars
  trail_eq : f.trail.map TrailPoint.pos
    = ((ticks.filter Tick.commits).map fun t => t.state.pos).reverse.take 10

theorem logbook_start (sky : Sky) (behaviors : FlightBehaviors) :
    Logbook (σ := σ) [] (start sky behaviors) := ⟨rfl, rfl, rfl⟩

/-- **One tick is entered**: it is counted, its totals come next, and the position it commits, if it
commits one, is put in front of the trail. -/
theorem Logbook.append {ticks : List (Tick Flight σ)} {t : Tick Flight σ} (h : Logbook ticks f)
    (hticks : t.state.ticks = f.ticks + 1)
    (htotals : totals t.state.stars = totals f.stars ++ t.events.filterMap Event.starTotal?)
    (htrail : t.state.trail
      = if t.commits then (⟨t.state.pos⟩ :: f.trail).take trailLength else f.trail) :
    Logbook (ticks ++ [t]) t.state where
  ticks_eq := by
    rw [hticks, h.ticks_eq, List.length_append, List.length_singleton]
  totals_eq := by
    have htold : toldBy (ticks ++ [t]) = toldBy ticks ++ t.events := by simp [toldBy]
    rw [htold, List.filterMap_append, h.totals_eq, htotals]
  trail_eq := by
    rw [htrail, List.filter_append, List.map_append, List.reverse_append]
    cases hcommits : t.commits with
    | false => simp [hcommits, h.trail_eq]
    | true => simp [hcommits, h.trail_eq, trailLength, List.take_take]

/-- One more star is counted next. -/
theorem totals_succ (stars : ℕ) : totals (stars + 1) = totals stars ++ [stars + 1] := by
  rw [totals, List.range_succ, List.map_append, List.map_singleton, totals]

/-- The star that is enough is the fifth, while there are fewer. -/
theorem succ_stars_eq {stars : ℕ} (h : stars < 5) (enough : starsToWin ≤ stars + 1) :
    stars + 1 = 5 := by
  rw [starsToWin] at enough
  omega

variable [RandomSource σ]

/-! ## How a tick can end -/

/-- **A flight in the middle of a tick**: it has counted the tick, and may have changed its speed,
its heading and its tint. -/
structure Underway (f g : Flight) : Prop where
  ticks_eq : g.ticks = f.ticks + 1
  pos_eq : g.pos = f.pos
  stars_eq : g.stars = f.stars
  goal_eq : g.goal = f.goal
  hazards_eq : g.hazards = f.hazards
  trail_eq : g.trail = f.trail

/-- **How a tick of a flight can end.** -/
inductive Outcome (f : Flight) : Tick Flight σ → Prop where
  /-- It fails; where it stalls or hits an edge, nothing is told and nothing turned. -/
  | failed {g : Flight} {cause : FailCause} {events : List Event} {source : σ}
      (way : Underway f g) (starless : Starless events)
      (untouched : cause = .stalled ∨ cause = .hitEdge →
        events = [] ∧ g.heading = f.heading ∧ g.tintHue = f.tintHue) :
      Outcome f ⟨some (.fail cause), events, g, source⟩
  /-- It comes to a position without a star. -/
  | far {g : Flight} {events : List Event} {source : σ} (next : Point) (way : Underway f g)
      (starless : Starless events) : Outcome f ⟨none, events, g.landed next, source⟩
  /-- It catches the last star. -/
  | last {g : Flight} {events : List Event} {source : σ} (next : Point) (way : Underway f g)
      (starless : Starless events) (enough : starsToWin ≤ f.stars + 1) :
      Outcome f ⟨some .win, events ++ [.starCaught (f.stars + 1)], g.caught next, source⟩
  /-- It catches a star, and the sky is rolled anew. -/
  | star {g : Flight} {events : List Event} {source : σ} (next : Point) (way : Underway f g)
      (starless : Starless events) (more : ¬ starsToWin ≤ f.stars + 1) :
      Outcome f ⟨none, events ++ [.starCaught (f.stars + 1), .layoutRerolled],
        (g.caught next).setSky (Sky.roll next source).1, (Sky.roll next source).2⟩

variable {g : Flight} {source : σ}

/-- What comes of a position in the middle of a tick ends the tick. -/
theorem Comes.outcome {next : Point} {events : List Event} {t : Tick Flight σ}
    (h : g.Comes next events source t) (way : Underway f g) (starless : Starless events) :
    f.Outcome t := by
  cases h with
  | storm hit =>
    refine .failed way starless ?_
    rintro (h | h) <;> cases h
  | far => exact .far next way starless
  | last _ _ enough =>
    rw [way.stars_eq] at enough ⊢
    exact .last next way starless enough
  | star _ _ more =>
    rw [way.stars_eq] at more ⊢
    exact .star next way starless more

/-- **Every tick ends in one of these ways.** -/
theorem outcome_tick (f : Flight) (source : σ) : f.Outcome (f.tick source) := by
  have hstarless : Starless [] := fun event hmem => absurd hmem List.not_mem_nil
  have hway : Underway f f.decay := ⟨rfl, rfl, rfl, rfl, rfl, rfl⟩
  have hticks := f.ticks_tick source
  generalize f.tick source = t at hticks ⊢
  cases hticks with
  | stalled | edge => exact .failed hway hstarless fun _ => ⟨rfl, rfl, rfl⟩
  | inside _ _ comes => exact comes.outcome hway hstarless
  | bounced _ _ _ comes =>
    obtain ⟨hue, hbounced⟩ := f.exists_bouncedOff source
    rw [hbounced] at comes
    refine comes.outcome ⟨rfl, rfl, rfl, rfl, rfl, rfl⟩ fun event hmem => ?_
    obtain rfl := List.mem_singleton.mp hmem
    exact ⟨rfl, Event.noConfusion⟩

/-! ## One tick -/

/-- **What a tick does to the books of a flight.** -/
structure Closes (f : Flight) (t : Tick Flight σ) : Prop where
  /-- Without a verdict there are fewer than five stars. -/
  ongoing : t.verdict = none → t.state.stars < 5
  /-- The flight is won in the tick that catches the fifth star. -/
  win_iff : t.verdict = some .win ↔ .starCaught 5 ∈ t.events
  /-- A star before the fifth is caught last, and at once the sky is rolled anew around the
  position, with three storms. -/
  rerolled : ∀ total < 5, .starCaught total ∈ t.events →
    (∃ earlier, Starless earlier ∧ t.events = earlier ++ [.starCaught total, .layoutRerolled]) ∧
      (∃ source, t.source = (Sky.roll t.state.pos source).2 ∧
        t.state.goal = (Sky.roll t.state.pos source).1.goal ∧
        t.state.hazards = (Sky.roll t.state.pos source).1.hazards) ∧
      t.state.hazards.length = 3
  /-- Without such a star the sky stays. -/
  settled : (∀ total < 5, .starCaught total ∉ t.events) → .layoutRerolled ∉ t.events ∧
    t.state.goal = f.goal ∧ t.state.hazards = f.hazards
  /-- A tick that fails leaves the position, the stars, the sky and the trail. -/
  failed : ∀ cause, t.verdict = some (.fail cause) → t.state.pos = f.pos ∧
    t.state.stars = f.stars ∧ t.state.goal = f.goal ∧ t.state.hazards = f.hazards ∧
    t.state.trail = f.trail
  /-- A tick that stalls or hits an edge tells nothing, and leaves the heading and the tint too. -/
  untouched : t.verdict = some (.fail .stalled) ∨ t.verdict = some (.fail .hitEdge) →
    t.events = [] ∧ t.state.heading = f.heading ∧ t.state.tintHue = f.tintHue

section Ends

variable {next : Point} {events : List Event}

theorem closes_failed {cause : FailCause} (way : Underway f g) (starless : Starless events)
    (untouched : cause = .stalled ∨ cause = .hitEdge →
      events = [] ∧ g.heading = f.heading ∧ g.tintHue = f.tintHue) :
    f.Closes ⟨some (.fail cause), events, g, source⟩ where
  ongoing := nofun
  win_iff := iff_of_false nofun (starless.starCaught_notMem 5)
  rerolled total _ hmem := absurd hmem (starless.starCaught_notMem total)
  settled _ := ⟨starless.layoutRerolled_notMem, way.goal_eq, way.hazards_eq⟩
  failed _ _ := ⟨way.pos_eq, way.stars_eq, way.goal_eq, way.hazards_eq, way.trail_eq⟩
  untouched hverdict := by
    refine untouched ?_
    rcases hverdict with hverdict | hverdict
    · cases hverdict
      exact .inl rfl
    · cases hverdict
      exact .inr rfl

theorem closes_far (hstars : f.stars < 5) (way : Underway f g) (starless : Starless events) :
    f.Closes ⟨none, events, g.landed next, source⟩ where
  ongoing _ := by
    change g.stars < 5
    rwa [way.stars_eq]
  win_iff := iff_of_false nofun (starless.starCaught_notMem 5)
  rerolled total _ hmem := absurd hmem (starless.starCaught_notMem total)
  settled _ := ⟨starless.layoutRerolled_notMem, way.goal_eq, way.hazards_eq⟩
  failed := nofun
  untouched := nofun

theorem closes_last (hstars : f.stars < 5) (way : Underway f g) (starless : Starless events)
    (enough : starsToWin ≤ f.stars + 1) :
    f.Closes ⟨some .win, events ++ [.starCaught (f.stars + 1)], g.caught next, source⟩ := by
  rw [succ_stars_eq hstars enough]
  have honly (total : ℕ) :
      .starCaught total ∈ events ++ [Event.starCaught 5] ↔ total = 5 := by
    rw [starless.starCaught_mem_append_iff, List.mem_singleton, Event.starCaught.injEq]
  refine ⟨nofun, iff_of_true rfl ((honly 5).mpr rfl), fun total hless hmem => ?_,
    fun _ => ⟨?_, way.goal_eq, way.hazards_eq⟩, nofun, nofun⟩
  · obtain rfl := (honly total).mp hmem
    exact absurd hless (by decide)
  · simp [starless.layoutRerolled_notMem]

theorem closes_star (way : Underway f g) (starless : Starless events)
    (more : ¬ starsToWin ≤ f.stars + 1) :
    f.Closes ⟨none, events ++ [.starCaught (f.stars + 1), .layoutRerolled],
      (g.caught next).setSky (Sky.roll next source).1, (Sky.roll next source).2⟩ := by
  have hless : f.stars + 1 < 5 := Nat.not_le.mp more
  have honly (total : ℕ) : .starCaught total
      ∈ events ++ [Event.starCaught (f.stars + 1), .layoutRerolled] ↔ total = f.stars + 1 := by
    rw [starless.starCaught_mem_append_iff]
    simp
  refine ⟨fun _ => ?_, iff_of_false nofun fun hmem => ?_, fun total _ hmem => ?_,
    fun hnone => absurd ((honly _).mpr rfl) (hnone _ hless), nofun, nofun⟩
  · change g.stars + 1 < 5
    rwa [way.stars_eq]
  · rw [← (honly 5).mp hmem] at hless
    exact absurd hless (by decide)
  · obtain rfl := (honly total).mp hmem
    -- read off before the sky is compared: unfolding a roll leads down to the floats
    have hpos : ((g.caught next).setSky (Sky.roll next source).1).pos = next := rfl
    refine ⟨⟨events, starless, rfl⟩, ⟨source, ?_⟩, Sky.length_hazards_roll next source⟩
    rw [hpos]
    exact ⟨rfl, rfl, rfl⟩

end Ends

/-- **However a tick ends, it closes its books.** -/
theorem Outcome.closes {t : Tick Flight σ} (h : f.Outcome t) (hstars : f.stars < 5) :
    f.Closes t := by
  cases h with
  | failed way starless untouched => exact closes_failed way starless untouched
  | far next way starless => exact closes_far hstars way starless
  | last next way starless enough => exact closes_last hstars way starless enough
  | star next way starless more => exact closes_star way starless more

/-! ## All ticks -/

/-- Without a star the totals stay. -/
theorem Underway.totals_of_starless (way : Underway f g) {events : List Event}
    (starless : Starless events) :
    totals g.stars = totals f.stars ++ events.filterMap Event.starTotal? := by
  rw [starless.filterMap_eq_nil, List.append_nil, way.stars_eq]

/-- With a star there is one more total. -/
theorem Underway.totals_of_star (way : Underway f g) {events later : List Event}
    (starless : Starless events) (hlater : later.filterMap Event.starTotal? = [f.stars + 1]) :
    totals (g.stars + 1) = totals f.stars ++ (events ++ later).filterMap Event.starTotal? := by
  rw [List.filterMap_append, starless.filterMap_eq_nil, hlater, List.nil_append, way.stars_eq,
    totals_succ]

theorem Underway.trail_landed (way : Underway f g) (next : Point) :
    (g.landed next).trail = (⟨next⟩ :: f.trail).take trailLength := by
  rw [← way.trail_eq]
  rfl

/-- **Every tick is entered into the logbook.** -/
theorem Outcome.logbook {ticks : List (Tick Flight σ)} {t : Tick Flight σ} (ht : f.Outcome t)
    (h : Logbook ticks f) : Logbook (ticks ++ [t]) t.state := by
  cases ht with
  | failed way starless =>
    exact h.append way.ticks_eq (way.totals_of_starless starless) way.trail_eq
  | far next way starless =>
    exact h.append way.ticks_eq (way.totals_of_starless starless) (way.trail_landed next)
  | last next way starless =>
    exact h.append way.ticks_eq (way.totals_of_star starless rfl) (way.trail_landed next)
  | star next way starless =>
    exact h.append way.ticks_eq (way.totals_of_star starless rfl) (way.trail_landed next)

/-- The ticks of a flight are the ticks in a row. -/
theorem ticksFrom_eq_inRow (n : ℕ) (f : Flight) (source : σ) :
    ticksFrom n f source = Tick.inRow Flight.tick n f source := by
  induction n generalizing f source with
  | zero => rfl
  | succ n ih => exact congrArg (List.cons _) (ih _ _)

/-- As long as a flight has no verdict, it has fewer than five stars, and a logbook. -/
theorem logbook_after (sky : Sky) (behaviors : FlightBehaviors) (source : σ) {n : ℕ}
    (ongoing : ∀ t ∈ Tick.inRow Flight.tick n (start sky behaviors) source, t.verdict = none) :
    (Tick.after Flight.tick n (start sky behaviors) source).1.stars < 5 ∧
      Logbook (Tick.inRow Flight.tick n (start sky behaviors) source)
        (Tick.after Flight.tick n (start sky behaviors) source).1 := by
  induction n with
  | zero => exact ⟨(by decide : 0 < 5), logbook_start sky behaviors⟩
  | succ n ih =>
    rw [Tick.inRow_succ, List.forall_mem_append] at ongoing
    obtain ⟨hstars, hbook⟩ := ih ongoing.1
    rw [Tick.inRow_succ, Tick.after_succ]
    have hends := outcome_tick (Tick.after Flight.tick n (start sky behaviors) source).1
      (Tick.after Flight.tick n (start sky behaviors) source).2
    exact ⟨(hends.closes hstars).ongoing (ongoing.2 _ (List.mem_singleton.mpr rfl)),
      hends.logbook hbook⟩

/-- While there are few stars, a tick fits if it can be counted. -/
theorem Outcome.fits_iff {t : Tick Flight σ} (ht : f.Outcome t) (hstars : f.stars < 5) :
    t.state.fits = true ↔ f.ticks + 1 < 2 ^ 64 := by
  have hcounted : t.state.ticks = f.ticks + 1 ∧ t.state.stars ≤ f.stars + 1 := by
    cases ht with
    | failed way | far _ way => exact ⟨way.ticks_eq, way.stars_eq.trans_le (Nat.le_succ _)⟩
    | last _ way | star _ way => exact ⟨way.ticks_eq, (congrArg (· + 1) way.stars_eq).le⟩
  rw [fits, Bool.and_eq_true, decide_eq_true_iff, decide_eq_true_iff, hcounted.1]
  simp only [UInt64.size, UInt32.size]
  omega

/-- **The ticks of a flight that has no verdict go well** for as long as they can be counted. -/
theorem after?_of_ongoing (sky : Sky) (behaviors : FlightBehaviors) (source : σ) {n : ℕ}
    (ongoing : ∀ t ∈ Tick.inRow Flight.tick n (start sky behaviors) source, t.verdict = none) :
    Tick.after? Flight.tick? (n + 1) (start sky behaviors) source
      = if n + 1 < 2 ^ 64 then .ok (Tick.after Flight.tick (n + 1) (start sky behaviors) source)
        else .error .overflow := by
  have heach (k : ℕ) (hk : k ≤ n) :
      (Tick.nth Flight.tick k (start sky behaviors) source).state.fits = true ↔ k + 1 < 2 ^ 64 := by
    have hbefore : ∀ t ∈ Tick.inRow Flight.tick k (start sky behaviors) source,
        t.verdict = none := fun t ht => by
      obtain ⟨m, hm, rfl⟩ := (Tick.mem_inRow_iff ..).mp ht
      exact ongoing _ ((Tick.mem_inRow_iff ..).mpr ⟨m, by omega, rfl⟩)
    obtain ⟨hstars, hbook⟩ := logbook_after sky behaviors source hbefore
    have hfits := (outcome_tick (Tick.after Flight.tick k (start sky behaviors) source).1
      (Tick.after Flight.tick k (start sky behaviors) source).2).fits_iff hstars
    rwa [hbook.ticks_eq, Tick.length_inRow] at hfits
  have hall : (∀ k < n + 1,
      (Tick.nth Flight.tick k (start sky behaviors) source).state.fits = true) ↔
        n + 1 < 2 ^ 64 :=
    ⟨fun h => (heach n le_rfl).mp (h n (Nat.lt_succ_self n)),
      fun hn k hk => (heach k (by omega)).mpr (by omega)⟩
  refine (Tick.after?_eq Flight.tick _ source fits (n + 1)).trans ?_
  simp only [hall]

/-- **A flight keeps its logbook**, up to and with the tick of its verdict: as long as it has none,
it has fewer than five stars, and the next tick is entered into the logbook and closes its books.
Only a tick that can no longer be counted is a fault. -/
theorem logbook_kept (sky : Sky) (behaviors : FlightBehaviors) (source : σ) (n : ℕ)
    (ongoing : ∀ t ∈ ticksFrom n (start sky behaviors) source, t.verdict = none) :
    let f := (Tick.after Flight.tick n (start sky behaviors) source).1
    let t := Tick.nth Flight.tick n (start sky behaviors) source
    f.stars < 5 ∧ Logbook (ticksFrom n (start sky behaviors) source) f ∧
      Logbook (ticksFrom (n + 1) (start sky behaviors) source) t.state ∧ f.Closes t ∧
      Tick.after? Flight.tick? (n + 1) (start sky behaviors) source
        = if n + 1 < 2 ^ 64 then .ok (t.state, t.source) else .error .overflow := by
  simp only [ticksFrom_eq_inRow] at ongoing ⊢
  obtain ⟨hstars, hbook⟩ := logbook_after sky behaviors source ongoing
  have hends := outcome_tick (Tick.after Flight.tick n (start sky behaviors) source).1
    (Tick.after Flight.tick n (start sky behaviors) source).2
  have hchecked := after?_of_ongoing sky behaviors source ongoing
  rw [Tick.after_succ] at hchecked
  rw [Tick.inRow_succ]
  exact ⟨hstars, hbook, hends.logbook hbook, hends.closes hstars, hchecked⟩

/-- A flight that finds its first star right where it starts: the tick after it closes its books. -/
theorem logbook_kept_first :
    let begin := start ⟨⟨50, 50⟩, []⟩ { FlightBehaviors.none with forever := true }
    let t := Tick.nth Flight.tick 1 begin (Pcg.ofSeed 0)
    (∀ t ∈ ticksFrom 1 begin (Pcg.ofSeed 0), t.verdict = none ∧ t.state.stars = 1) ∧
      Logbook (ticksFrom 2 begin (Pcg.ofSeed 0)) t.state ∧
      (Tick.after Flight.tick 1 begin (Pcg.ofSeed 0)).1.Closes t := by
  intro begin t
  have hfirst : ∀ t ∈ ticksFrom 1 begin (Pcg.ofSeed 0), t.verdict = none ∧ t.state.stars = 1 := by
    decide +kernel
  obtain ⟨-, -, hbook, hcloses, -⟩ := logbook_kept _ _ _ 1 fun t ht => (hfirst t ht).1
  exact ⟨hfirst, hbook, hcloses⟩

end Flight

end BlockCoding
