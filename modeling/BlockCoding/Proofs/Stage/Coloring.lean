import BlockCoding.Proofs.Stage.Ticking
import Mathlib.Data.List.Forall2

/-!
# Proofs/Stage/Coloring — the tint of a flight, and what it costs the generator

The tint is shown and never looked at: flights that differ in nothing else are `Twin`s, and a tick
leaves twins `Alike`, wherever their random numbers come from (`exists_keeps_tick`).  But a new tint
is drawn from the generator that rolls the next sky.  So two runs that differ in the color flag stay
twins until the first sky that is rolled after a bounce, and are alike in that tick still
(`color_cosmetic`); that sky need not be the same (`color_displaces_star`).
-/

namespace BlockCoding

/-- An event without the tint that it tells. -/
def Event.untinted : Event → Event
  | .bounced _ => .bounced none
  | event => event

/-- Whether an event tells of a bounce. -/
def Event.isBounce : Event → Bool
  | .bounced _ => true
  | _ => false

/-- Whether an event tells of a new sky. -/
def Event.isReroll : Event → Bool
  | .layoutRerolled => true
  | _ => false

/-- **No sky is rolled after a bounce**, as far as the events tell. -/
def Settled (events : List Event) : Prop :=
  events.Pairwise fun event later => event.isBounce = true → later.isReroll = false

instance (events : List Event) : Decidable (Settled events) :=
  inferInstanceAs (Decidable (events.Pairwise _))

/-! ## Flights that look the same -/

namespace Flight

/-- **Two flights that are the same** but for their skies, their tints and the color flag. -/
structure Alike (f f' : Flight) : Prop where
  pos_eq : f'.pos = f.pos
  heading_eq : f'.heading = f.heading
  speed_eq : f'.speed = f.speed
  stars_eq : f'.stars = f.stars
  ticks_eq : f'.ticks = f.ticks
  trail_eq : f'.trail = f.trail
  behaviors_eq : f'.behaviors = { f.behaviors with color := f'.behaviors.color }

/-- **Two flights that are the same** but for their tints and the color flag. -/
structure Twin (f f' : Flight) : Prop extends Alike f f' where
  goal_eq : f'.goal = f.goal
  hazards_eq : f'.hazards = f.hazards

/-- A flight with another tint and another color flag. -/
def dye (f : Flight) (hue : Option Float32) (color : Bool) : Flight :=
  { f with
    behaviors := { f.behaviors with color }
    tintHue := hue }

theorem twin_dye (f : Flight) (hue : Option Float32) (color : Bool) : Twin f (f.dye hue color) :=
  ⟨⟨rfl, rfl, rfl, rfl, rfl, rfl, rfl⟩, rfl, rfl⟩

/-- Twins stay twins under one sky, and alike under two. -/
theorem alike_dye_setSky (f : Flight) (hue : Option Float32) (color : Bool) (sky sky' : Sky) :
    Alike (f.setSky sky) ((f.dye hue color).setSky sky') := ⟨rfl, rfl, rfl, rfl, rfl, rfl, rfl⟩

/-- A twin is a dyed flight. -/
theorem Twin.exists_dye {f f' : Flight} (h : Twin f f') : ∃ hue color, f' = f.dye hue color := by
  refine ⟨f'.tintHue, f'.behaviors.color, ?_⟩
  rw [dye, ← h.behaviors_eq, ← h.pos_eq, ← h.heading_eq, ← h.speed_eq, ← h.stars_eq, ← h.ticks_eq,
    ← h.trail_eq, ← h.goal_eq, ← h.hazards_eq]

end Flight

/-- Two ticks with the same verdict and, tints apart, the same events, whose flights are related. -/
structure Tick.Matches {σ : Type} (related : Flight → Flight → Prop) (t t' : Tick Flight σ) :
    Prop where
  verdict_eq : t'.verdict = t.verdict
  events_eq : t'.events.map Event.untinted = t.events.map Event.untinted
  state : related t.state t'.state

theorem Tick.Matches.alike {σ : Type} {t t' : Tick Flight σ} (h : t.Matches Flight.Twin t') :
    t.Matches Flight.Alike t' := ⟨h.verdict_eq, h.events_eq, h.state.toAlike⟩

/-! ## One tick -/

namespace Flight

variable {σ : Type}

/-- **What twins come to that go on with two sources**: they stay alike; and they stay twins if no
sky is rolled, or if it is rolled from the same source. -/
structure Keeps (source source' : σ) (t t' : Tick Flight σ) : Prop where
  alike : t.Matches Alike t'
  twin : (∀ event ∈ t.events, event.isReroll = false) → t.Matches Twin t'
  same : source = source' → t.Matches Twin t' ∧ t.source = t'.source

variable {source source' : σ} {events events' : List Event}

/-- Where no sky is rolled, twins stay twins. -/
theorem Keeps.of_twin {f f' : Flight} (h : Twin f f')
    (he : events'.map Event.untinted = events.map Event.untinted) (verdict : Option Verdict) :
    Keeps source source' ⟨verdict, events, f, source⟩ ⟨verdict, events', f', source'⟩ :=
  have htwin : Tick.Matches Twin (⟨verdict, events, f, source⟩ : Tick Flight σ)
      ⟨verdict, events', f', source'⟩ := ⟨rfl, he, h⟩
  ⟨htwin.alike, fun _ => htwin, fun hs => ⟨htwin, hs⟩⟩

variable [RandomSource σ] (f : Flight) (hue : Option Float32) (color : Bool)

/-- Twins that arrive at one place catch the star both or neither. -/
theorem keeps_arrive (next : Point)
    (he : events'.map Event.untinted = events.map Event.untinted) :
    Keeps source source' (f.arrive next events source)
      ((f.dye hue color).arrive next events' source') := by
  have htold (later : List Event) :
      (events' ++ later).map Event.untinted = (events ++ later).map Event.untinted := by
    rw [List.map_append, List.map_append, he]
  cases hstar : Stage.inContact next f.goal Stage.contactRadius with
  | false =>
    rw [f.arrive_of_far next hstar, (f.dye hue color).arrive_of_far next hstar]
    exact .of_twin (twin_dye (f.landed next) hue color) he none
  | true =>
    by_cases hlast : starsToWin ≤ f.stars + 1
    · rw [f.arrive_of_last next hstar hlast, (f.dye hue color).arrive_of_last next hstar hlast]
      exact .of_twin (twin_dye (f.caught next) hue color) (htold _) _
    · rw [f.arrive_of_star next hstar hlast, (f.dye hue color).arrive_of_star next hstar hlast]
      -- For any two skies: comparing the two rolls by `rfl` would unfold them down to the floats.
      refine ⟨⟨rfl, htold _, alike_dye_setSky (f.caught next) hue color _ _⟩, fun hquiet => ?_,
        fun hs => ?_⟩
      · cases hquiet .layoutRerolled (by simp)
      · subst hs
        exact ⟨⟨rfl, htold _, twin_dye ((f.caught next).setSky _) hue color⟩, rfl⟩

/-- Twins that are to come to one place touch a storm there both or neither. -/
theorem keeps_proceed (next : Point)
    (he : events'.map Event.untinted = events.map Event.untinted) :
    Keeps source source' (f.proceed next events source)
      ((f.dye hue color).proceed next events' source') := by
  cases hstorm : Stage.firstContact? next f.hazards Stage.contactRadius with
  | none =>
    rw [f.proceed_of_clear next hstorm, (f.dye hue color).proceed_of_clear next hstorm]
    exact f.keeps_arrive hue color next he
  | some index =>
    rw [f.proceed_of_storm next hstorm, (f.dye hue color).proceed_of_storm next hstorm]
    exact .of_twin (f.twin_dye hue color) he _

/-- Bouncing off turns a flight around, and may dye it. -/
theorem twin_bouncedOff (source : σ) :
    Twin (f.decay.reflected (Stage.edgeHit f.proposed)) (f.bouncedOff source).1 := by
  rw [bouncedOff, bounceOff]
  dsimp only
  split <;> exact ⟨⟨rfl, rfl, rfl, rfl, rfl, rfl, rfl⟩, rfl, rfl⟩

/-- So twins that bounce off are twins, whatever the sources of their tints. -/
theorem exists_dye_bouncedOff (source source' : σ) :
    ∃ hue' color', ((f.dye hue color).bouncedOff source').1
      = (f.bouncedOff source).1.dye hue' color' := by
  obtain ⟨tint, c, hbounced⟩ := (f.twin_bouncedOff source).exists_dye
  obtain ⟨tint', c', hbounced'⟩ := ((f.dye hue color).twin_bouncedOff source').exists_dye
  refine ⟨tint', c', ?_⟩
  rw [hbounced, hbounced']
  rfl

/-- **A tick of twins.**  They go on with the sources they have, or bounce first and go on with what
the tints have left of these. -/
theorem exists_keeps_tick (source source' : σ) :
    ∃ s s', Keeps s s' (f.tick source) ((f.dye hue color).tick source') ∧
      (s = source ∧ s' = source' ∨
        ∃ tint later, (f.tick source).events = .bounced tint :: later) := by
  cases hstalled : f.decay.isStalled with
  | true =>
    rw [f.tick_of_stalled hstalled, (f.dye hue color).tick_of_stalled hstalled]
    exact ⟨source, source', .of_twin (f.decay.twin_dye hue color) rfl _, .inl ⟨rfl, rfl⟩⟩
  | false =>
    cases hout : (Stage.edgeHit f.proposed).any with
    | false =>
      rw [f.tick_of_inside hstalled hout, (f.dye hue color).tick_of_inside hstalled hout]
      exact ⟨source, source', f.decay.keeps_proceed hue color _ rfl, .inl ⟨rfl, rfl⟩⟩
    | true =>
      cases hb : f.behaviors.bounces with
      | false =>
        rw [f.tick_of_edge hstalled hout hb, (f.dye hue color).tick_of_edge hstalled hout hb]
        exact ⟨source, source', .of_twin (f.decay.twin_dye hue color) rfl _, .inl ⟨rfl, rfl⟩⟩
      | true =>
        rw [f.tick_of_bounce hstalled hout hb, (f.dye hue color).tick_of_bounce hstalled hout hb]
        obtain ⟨hue', color', hdyed⟩ := f.exists_dye_bouncedOff hue color source source'
        refine ⟨(f.bouncedOff source).2, ((f.dye hue color).bouncedOff source').2, ?_, .inr ?_⟩
        · rw [show (f.dye hue color).rebound = f.rebound from rfl, hdyed]
          exact (f.bouncedOff source).1.keeps_proceed hue' color' f.rebound rfl
        · obtain ⟨later, hlater⟩ := ((f.bouncedOff source).1.comes_proceed f.rebound
            [.bounced (f.bouncedOff source).1.tintHue] (f.bouncedOff source).2).prefix_events
          exact ⟨_, later, hlater.symm⟩

/-! ## Ticks in a row -/

variable {f f' : Flight}

theorem toldBy_ticksFrom_succ (n : Nat) (f : Flight) (source : σ) :
    toldBy (ticksFrom (n + 1) f source)
      = (f.tick source).events
        ++ toldBy (ticksFrom n (f.tick source).state (f.tick source).source) := rfl

/-- **Two runs agree for `n` ticks**: in these, the flights are twins with the same verdicts and the
same events, and in the tick after they are alike still. -/
structure AgreeFor (n : Nat) (f f' : Flight) (source source' : σ) : Prop where
  twins : List.Forall₂ (Tick.Matches Twin) (ticksFrom n f source) (ticksFrom n f' source')
  alike : List.Forall₂ (Tick.Matches Alike) (ticksFrom (n + 1) f source)
    (ticksFrom (n + 1) f' source')

theorem AgreeFor.zero (h : Twin f f') (source source' : σ) : AgreeFor 0 f f' source source' := by
  obtain ⟨hue, color, rfl⟩ := h.exists_dye
  obtain ⟨_, _, hkeeps, -⟩ := f.exists_keeps_tick hue color source source'
  exact ⟨.nil, .cons hkeeps.alike .nil⟩

theorem AgreeFor.succ {n : Nat} {source source' : σ}
    (h : (f.tick source).Matches Twin (f'.tick source'))
    (hn : AgreeFor n (f.tick source).state (f'.tick source').state (f.tick source).source
      (f'.tick source').source) : AgreeFor (n + 1) f f' source source' :=
  ⟨.cons h hn.twins, .cons h.alike hn.alike⟩

/-- Twins agree as long as no sky is rolled, wherever their tints come from. -/
theorem AgreeFor.of_quiet {n : Nat} (h : Twin f f') {source source' : σ}
    (hquiet : ∀ event ∈ toldBy (ticksFrom n f source), event.isReroll = false) :
    AgreeFor n f f' source source' := by
  induction n generalizing f f' source source' with
  | zero => exact .zero h source source'
  | succ n ih =>
    rw [toldBy_ticksFrom_succ, List.forall_mem_append] at hquiet
    obtain ⟨hue, color, rfl⟩ := h.exists_dye
    obtain ⟨_, _, hkeeps, -⟩ := f.exists_keeps_tick hue color source source'
    have htwin := hkeeps.twin hquiet.1
    exact .succ htwin (ih htwin.state hquiet.2)

/-- Twins with one source agree as long as no sky is rolled after a bounce: up to the first bounce
they share the source, and from there on no sky is rolled. -/
theorem AgreeFor.of_settled {n : Nat} (h : Twin f f') {source : σ}
    (hsettled : Settled (toldBy (ticksFrom n f source))) : AgreeFor n f f' source source := by
  induction n generalizing f f' source with
  | zero => exact .zero h source source
  | succ n ih =>
    obtain ⟨hue, color, rfl⟩ := h.exists_dye
    obtain ⟨s, s', hkeeps, ⟨rfl, rfl⟩ | ⟨tint, later, hbounce⟩⟩ :=
      f.exists_keeps_tick hue color source source
    · obtain ⟨htwin, hsource⟩ := hkeeps.same rfl
      refine .succ htwin ?_
      rw [← hsource]
      exact ih htwin.state (List.pairwise_append.mp hsettled).2.1
    · -- From this bounce on the sources may differ, and nothing is rolled from them any more.
      refine .of_quiet (f.twin_dye hue color) ?_
      rw [toldBy_ticksFrom_succ, hbounce] at hsettled ⊢
      intro event hevent
      rcases List.mem_cons.mp hevent with rfl | hlater
      · rfl
      · exact List.rel_of_pairwise_cons hsettled hlater rfl

/-- **The color flag is cosmetic until a sky is rolled after a bounce.**  Two runs from one sky and
one source that differ in the color flag alone have, for as long as that has not happened, the same
positions, headings, speeds, stars, skies, trails and verdicts after every tick, and tell the same
events but for the tints; and in the tick after that, only the skies may differ besides. -/
theorem color_cosmetic (sky : Sky) (behaviors : FlightBehaviors) (color color' : Bool) (source : σ)
    (n : Nat)
    (h : Settled (toldBy (ticksFrom n (start sky { behaviors with color }) source))) :
    AgreeFor n (start sky { behaviors with color }) (start sky { behaviors with color := color' })
      source source :=
  .of_settled (twin_dye (start sky { behaviors with color }) none color') h

/-- A flight that goes on forever bounces off the right edge in tick 58, on its way to a star that
it reaches in tick 62. -/
theorem color_cosmetic_bounced :
    let behaviors := { FlightBehaviors.none with forever := true, ifEdge := true, bounce := true }
    let colored := start ⟨⟨80, 78⟩, []⟩ { behaviors with color := true }
    let plain := start ⟨⟨80, 78⟩, []⟩ { behaviors with color := false }
    Settled (toldBy (ticksFrom 61 colored (Pcg.ofSeed 0)))
      ∧ AgreeFor 61 colored plain (Pcg.ofSeed 0) (Pcg.ofSeed 0) := by
  intro behaviors colored plain
  have h : Settled (toldBy (ticksFrom 61 colored (Pcg.ofSeed 0))) := by decide +kernel
  exact ⟨h, color_cosmetic ⟨⟨80, 78⟩, []⟩ behaviors true false (Pcg.ofSeed 0) 61 h⟩

/-- **The color flag moves the next star.**  In tick 62 both flights catch the star, and the one
with the color flag finds the next one somewhere else: its tint has used up a word of the
generator. -/
theorem color_displaces_star :
    let behaviors := { FlightBehaviors.none with forever := true, ifEdge := true, bounce := true }
    let star (color : Bool) := ((ticksFrom 62 (start ⟨⟨80, 78⟩, []⟩ { behaviors with color })
      (Pcg.ofSeed 0)).getLast?.map fun t => t.state.goal.x)
    star true ≠ star false := by
  decide +kernel

end Flight

end BlockCoding
