import BlockCoding.Stage.Flight

/-!
# Proofs/Stage/Ticking — the ways a tick of a flight can go

A tick stalls, leaves the band, or proposes a position, which it may have to bounce back to
(`tick_of_stalled`, `tick_of_edge`, `tick_of_inside`, `tick_of_bounce`).  The position may be in a
storm, and otherwise the flight arrives there, near no star, at the last one, or at one after which
the sky is rolled anew (`arrive_of_far`, `arrive_of_last`, `arrive_of_star`).  `Comes` and `Ticks`
list these ways, so that what every tick keeps is proved by going through them.  `ticksFrom` strings
ticks together.
-/

namespace BlockCoding.Flight

/-! ## The flight on its way -/

/-- The position that a flight proposes in its next tick. -/
def proposed (f : Flight) : Point := f.decay.pos.shift f.decay.heading f.decay.speed

/-- The flight that has turned around at an edge. -/
def reflected (f : Flight) (hit : Stage.EdgeHit) : Flight :=
  { f with heading := Stage.reflect f.heading hit }

/-- The position to which the flight bounces back from the edges. -/
def rebound (f : Flight) : Point := Stage.clampHit f.proposed (Stage.edgeHit f.proposed)

/-- The flight that has come to a position. -/
def landed (f : Flight) (next : Point) : Flight := { f with pos := next }.recordTrail

/-- The flight that has caught the star there. -/
def caught (f : Flight) (next : Point) : Flight := { f.landed next with stars := f.stars + 1 }

variable {σ : Type} [RandomSource σ] (f : Flight)

/-- The flight that has bounced off the edges, and the source that its tint leaves. -/
def bouncedOff (source : σ) : Flight × σ := f.decay.bounceOff (Stage.edgeHit f.proposed) source

/-! ## Arriving -/

section Arriving

variable (next : Point)

theorem arrive_of_far (h : Stage.inContact next f.goal Stage.contactRadius = false)
    (events : List Event) (source : σ) :
    f.arrive next events source = ⟨none, events, f.landed next, source⟩ := by
  simp only [arrive, landed, recordTrail, h, Bool.false_eq_true, if_false]

theorem arrive_of_last (h : Stage.inContact next f.goal Stage.contactRadius = true)
    (hlast : starsToWin ≤ f.stars + 1) (events : List Event) (source : σ) :
    f.arrive next events source
      = ⟨some .win, events ++ [.starCaught (f.stars + 1)], f.caught next, source⟩ := by
  simp only [arrive, caught, landed, recordTrail, h, hlast, if_true]

theorem arrive_of_star (h : Stage.inContact next f.goal Stage.contactRadius = true)
    (hmore : ¬ starsToWin ≤ f.stars + 1) (events : List Event) (source : σ) :
    f.arrive next events source
      = ⟨none, events ++ [.starCaught (f.stars + 1), .layoutRerolled],
        (f.caught next).setSky (Sky.roll next source).1, (Sky.roll next source).2⟩ := by
  rw [List.append_cons]
  simp only [arrive, caught, landed, recordTrail, h, hmore, if_true, if_false]

theorem proceed_of_storm {index : Nat}
    (h : Stage.firstContact? next f.hazards Stage.contactRadius = some index)
    (events : List Event) (source : σ) :
    f.proceed next events source
      = ⟨some (.fail (.hazard (.ofNat index))), events, f, source⟩ := by
  rw [proceed, h]

theorem proceed_of_clear (h : Stage.firstContact? next f.hazards Stage.contactRadius = none)
    (events : List Event) (source : σ) :
    f.proceed next events source = f.arrive next events source := by
  rw [proceed, h]

end Arriving

/-! ## A whole tick -/

theorem tick_of_stalled (h : f.decay.isStalled = true) (source : σ) :
    f.tick source = ⟨some (.fail .stalled), [], f.decay, source⟩ := by
  simp only [tick, h, if_true]

theorem tick_of_inside (h : f.decay.isStalled = false)
    (hin : (Stage.edgeHit f.proposed).any = false) (source : σ) :
    f.tick source = f.decay.proceed f.proposed [] source := by
  rw [proposed] at hin ⊢
  simp only [tick, h, hin, Bool.false_eq_true, if_false, Bool.not_false, if_true]

theorem tick_of_edge (h : f.decay.isStalled = false)
    (hout : (Stage.edgeHit f.proposed).any = true) (hb : f.behaviors.bounces = false)
    (source : σ) : f.tick source = ⟨some (.fail .hitEdge), [], f.decay, source⟩ := by
  rw [proposed] at hout
  have hb' : f.decay.behaviors.bounces = false := hb
  simp only [tick, h, hout, hb', Bool.false_eq_true, if_false, Bool.not_false, Bool.not_true,
    if_true]

theorem tick_of_bounce (h : f.decay.isStalled = false)
    (hout : (Stage.edgeHit f.proposed).any = true) (hb : f.behaviors.bounces = true)
    (source : σ) :
    f.tick source = (f.bouncedOff source).1.proceed f.rebound
      [.bounced (f.bouncedOff source).1.tintHue] (f.bouncedOff source).2 := by
  rw [rebound, bouncedOff]
  rw [proposed] at hout ⊢
  have hb' : f.decay.behaviors.bounces = true := hb
  simp only [tick, h, hout, hb', Bool.false_eq_true, if_false, Bool.not_true]

/-! ## The ways listed -/

/-- **What can come of a position** that a flight proceeds to. -/
inductive Comes (next : Point) (events : List Event) (source : σ) : Tick Flight σ → Prop where
  /-- It is in a storm. -/
  | storm {index : Nat}
      (hit : Stage.firstContact? next f.hazards Stage.contactRadius = some index) :
      Comes next events source ⟨some (.fail (.hazard (.ofNat index))), events, f, source⟩
  /-- There is no star. -/
  | far (clear : Stage.firstContact? next f.hazards Stage.contactRadius = none)
      (apart : Stage.inContact next f.goal Stage.contactRadius = false) :
      Comes next events source ⟨none, events, f.landed next, source⟩
  /-- The last star is caught. -/
  | last (clear : Stage.firstContact? next f.hazards Stage.contactRadius = none)
      (there : Stage.inContact next f.goal Stage.contactRadius = true)
      (enough : starsToWin ≤ f.stars + 1) :
      Comes next events source
        ⟨some .win, events ++ [.starCaught (f.stars + 1)], f.caught next, source⟩
  /-- A star is caught, and there is another one. -/
  | star (clear : Stage.firstContact? next f.hazards Stage.contactRadius = none)
      (there : Stage.inContact next f.goal Stage.contactRadius = true)
      (more : ¬ starsToWin ≤ f.stars + 1) :
      Comes next events source
        ⟨none, events ++ [.starCaught (f.stars + 1), .layoutRerolled],
          (f.caught next).setSky (Sky.roll next source).1, (Sky.roll next source).2⟩

/-- Proceeding comes to one of these. -/
theorem comes_proceed (next : Point) (events : List Event) (source : σ) :
    f.Comes next events source (f.proceed next events source) := by
  cases hstorm : Stage.firstContact? next f.hazards Stage.contactRadius with
  | some index =>
    rw [f.proceed_of_storm next hstorm]
    exact .storm hstorm
  | none =>
    rw [f.proceed_of_clear next hstorm]
    cases hstar : Stage.inContact next f.goal Stage.contactRadius with
    | false =>
      rw [f.arrive_of_far next hstar]
      exact .far hstorm hstar
    | true =>
      by_cases hlast : starsToWin ≤ f.stars + 1
      · rw [f.arrive_of_last next hstar hlast]
        exact .last hstorm hstar hlast
      · rw [f.arrive_of_star next hstar hlast]
        exact .star hstorm hstar hlast

/-- What has been told before a flight proceeds stays told. -/
theorem Comes.prefix_events {f : Flight} {next : Point} {events : List Event} {source : σ}
    {t : Tick Flight σ} (h : f.Comes next events source t) : events <+: t.events := by
  cases h with
  | storm | far => exact List.prefix_rfl
  | last | star => exact List.prefix_append _ _

/-- **What a tick can come to.** -/
inductive Ticks (source : σ) : Tick Flight σ → Prop where
  | stalled (gone : f.decay.isStalled = true) :
      Ticks source ⟨some (.fail .stalled), [], f.decay, source⟩
  | edge (flying : f.decay.isStalled = false)
      (outside : (Stage.edgeHit f.proposed).any = true) (leaves : f.behaviors.bounces = false) :
      Ticks source ⟨some (.fail .hitEdge), [], f.decay, source⟩
  | inside {t : Tick Flight σ} (flying : f.decay.isStalled = false)
      (within : (Stage.edgeHit f.proposed).any = false)
      (comes : f.decay.Comes f.proposed [] source t) : Ticks source t
  | bounced {t : Tick Flight σ} (flying : f.decay.isStalled = false)
      (outside : (Stage.edgeHit f.proposed).any = true) (bounces : f.behaviors.bounces = true)
      (comes : (f.bouncedOff source).1.Comes f.rebound
        [.bounced (f.bouncedOff source).1.tintHue] (f.bouncedOff source).2 t) : Ticks source t

/-- **Every tick comes to one of these.** -/
theorem ticks_tick (source : σ) : f.Ticks source (f.tick source) := by
  cases hstalled : f.decay.isStalled with
  | true =>
    rw [f.tick_of_stalled hstalled]
    exact .stalled hstalled
  | false =>
    cases hout : (Stage.edgeHit f.proposed).any with
    | false =>
      rw [f.tick_of_inside hstalled hout]
      exact .inside hstalled hout (f.decay.comes_proceed _ _ _)
    | true =>
      cases hbounces : f.behaviors.bounces with
      | false =>
        rw [f.tick_of_edge hstalled hout hbounces]
        exact .edge hstalled hout hbounces
      | true =>
        rw [f.tick_of_bounce hstalled hout hbounces]
        exact .bounced hstalled hout hbounces ((f.bouncedOff source).1.comes_proceed _ _ _)

/-! ## Ticks in a row -/

/-- **The first `n` ticks of a flight**, each from the state and the source that the one before
leaves, whatever their verdicts. -/
def ticksFrom : Nat → Flight → σ → List (Tick Flight σ)
  | 0, _, _ => []
  | n + 1, f, source =>
    let t := f.tick source
    t :: ticksFrom n t.state t.source

/-- All that ticks tell, in order. -/
def toldBy (ticks : List (Tick Flight σ)) : List Event := ticks.flatMap Tick.events

end BlockCoding.Flight
