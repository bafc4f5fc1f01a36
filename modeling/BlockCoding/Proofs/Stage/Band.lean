import BlockCoding.Proofs.Single.Numbers
import BlockCoding.Proofs.Stage.Frames
import BlockCoding.Proofs.Stage.Ticking

/-!
# Proofs/Stage/Band — a flight keeps to its band, and turns around at its edges

What a flight proposes is a number on both axes, since it starts from within the band
(`Aloft.isNaN_proposed`).  So a coordinate is inside the band or beyond one of its margins, and a
flight that bounces is put back onto the margin that it crossed (`clampToBand_of_beyond`).  Each
tick turns the heading around on just the axes on which the flight bounces (`movesOn_tick`), and
keeps the flight `Aloft`; by induction so it is after any number of ticks (`kept_in_band`).
-/

namespace BlockCoding

/-- The axes of the stage. -/
inductive Axis where
  | x
  | y

/-- The coordinate of a point on an axis. -/
def Point.on (p : Point) : Axis → Float32
  | .x => p.x
  | .y => p.y

namespace Stage

/-- Whether an axis was hit. -/
def EdgeHit.on (hit : EdgeHit) : Axis → Bool
  | .x => hit.x
  | .y => hit.y

/-- **A coordinate beyond one of the margins.** -/
def Beyond (v : Float32) : Prop := v < 10 ∨ 90 < v

/-! ## One coordinate -/

theorem bandMax_eq : bandMax = 90 := by decide +kernel

theorem outsideBand_iff (v : Float32) : outsideBand v = true ↔ Beyond v := by
  rw [outsideBand, bandMax_eq, Bool.or_eq_true, decide_eq_true_iff, decide_eq_true_iff, or_comm]
  rfl

/-- A number is inside the band or beyond a margin. -/
theorem in_band_of_not_beyond {v : Float32} (hv : v.isNaN = false) (h : ¬ Beyond v) :
    10 ≤ v ∧ v ≤ 90 :=
  ⟨Single.le_of_not_lt hv (by decide) fun hlow => h (.inl hlow),
    Single.le_of_not_lt (by decide) hv fun hhigh => h (.inr hhigh)⟩

/-- **What is beyond a margin is put onto that margin.** -/
theorem clampToBand_of_beyond {v : Float32} (h : Beyond v) :
    v < 10 ∧ clampToBand v = 10 ∨ 90 < v ∧ clampToBand v = 90 := by
  rw [clampToBand, bandMax_eq]
  rcases h with hlow | hhigh
  · exact .inl ⟨hlow, Single.clamp_of_lt hlow 90⟩
  · exact .inr ⟨hhigh, Single.clamp_of_gt (by decide) hhigh⟩

/-! ## One axis at a time -/

variable (axis : Axis)

theorem on_edgeHit (p : Point) : (edgeHit p).on axis = outsideBand (p.on axis) := by
  cases axis <;> rfl

theorem on_reflect (heading : Point) (hit : EdgeHit) : (reflect heading hit).on axis
    = if hit.on axis then -(heading.on axis) else heading.on axis := by
  cases axis <;> rfl

theorem on_clampHit (p : Point) (hit : EdgeHit) :
    (clampHit p hit).on axis = if hit.on axis then clampToBand (p.on axis) else p.on axis := by
  cases axis <;> rfl

theorem on_shift (p direction : Point) (length : Float32) :
    (p.shift direction length).on axis = p.on axis + direction.on axis * length := by
  cases axis <;> rfl

/-- An edge is hit if an axis was. -/
theorem EdgeHit.any_of_on {hit : EdgeHit} (h : hit.on axis = true) : hit.any = true := by
  cases axis with
  | x => exact Bool.or_eq_true_iff.mpr (.inl h)
  | y => exact Bool.or_eq_true_iff.mpr (.inr h)

end Stage

namespace Flight

open Stage (Beyond)

/-! ## What a tick does on one axis -/

/-- **The next tick bounces on an axis**: what the flight proposes there is beyond a margin, and its
program has both halves of the pair.  A flight that stalls proposes nothing. -/
def BouncesOn (f : Flight) (axis : Axis) : Prop :=
  f.decay.isStalled = false ∧ Beyond (f.proposed.on axis) ∧
    f.behaviors.ifEdge = true ∧ f.behaviors.bounce = true

/-- **What a tick does on an axis.**  The heading turns around if the flight bounces there; and
unless the tick fails, the coordinate is the margin that was crossed or the proposed one. -/
structure MovesOn {σ : Type} (f : Flight) (axis : Axis) (t : Tick Flight σ) : Prop where
  turned : f.BouncesOn axis → t.state.heading.on axis = -(f.heading.on axis)
  straight : ¬ f.BouncesOn axis → t.state.heading.on axis = f.heading.on axis
  landed : t.state.pos = f.pos ∧ (∃ cause, t.verdict = some (.fail cause)) ∨
    f.BouncesOn axis ∧ (f.proposed.on axis < 10 ∧ t.state.pos.on axis = 10 ∨
      90 < f.proposed.on axis ∧ t.state.pos.on axis = 90) ∨
    ¬ Beyond (f.proposed.on axis) ∧ t.state.pos.on axis = f.proposed.on axis

/-- A tick that fails without a bounce moves nothing. -/
theorem movesOn_of_stays {σ : Type} {f : Flight} {axis : Axis} {t : Tick Flight σ}
    (hnot : ¬ f.BouncesOn axis) (hheading : t.state.heading = f.heading)
    (hpos : t.state.pos = f.pos) (hfails : ∃ cause, t.verdict = some (.fail cause)) :
    f.MovesOn axis t where
  turned hbounces := absurd hbounces hnot
  straight _ := by rw [hheading]
  landed := .inl ⟨hpos, hfails⟩

variable {σ : Type} [RandomSource σ] {f : Flight} {source : σ}

/-- Bouncing off turns the heading around and may change the tint, nothing else. -/
theorem exists_bouncedOff (f : Flight) (source : σ) : ∃ tintHue, (f.bouncedOff source).1
    = { f.decay.reflected (Stage.edgeHit f.proposed) with tintHue } := by
  rw [bouncedOff, bounceOff]
  dsimp only
  split
  · exact ⟨_, rfl⟩
  · exact ⟨_, rfl⟩

/-- What comes of a position leaves heading, speed and behaviors. -/
theorem Comes.kept {next : Point} {events : List Event} {t : Tick Flight σ}
    (h : f.Comes next events source t) : t.state.heading = f.heading ∧
      t.state.speed = f.speed ∧ t.state.behaviors = f.behaviors := by
  cases h <;> exact ⟨rfl, rfl, rfl⟩

/-- The flight comes to the position, or fails and stays. -/
theorem Comes.pos_eq {next : Point} {events : List Event} {t : Tick Flight σ}
    (h : f.Comes next events source t) : t.state.pos = f.pos ∧
      (∃ cause, t.verdict = some (.fail cause)) ∨ t.state.pos = next := by
  cases h with
  | storm => exact .inl ⟨rfl, _, rfl⟩
  | far | last | star => exact .inr rfl

/-- A tick lets the speed decay, if at all, and leaves the behaviors. -/
theorem speed_tick (f : Flight) (source : σ) : (f.tick source).state.speed = f.decay.speed ∧
    (f.tick source).state.behaviors = f.behaviors := by
  have hticks := f.ticks_tick source
  generalize f.tick source = t at hticks ⊢
  cases hticks with
  | stalled | edge => exact ⟨rfl, rfl⟩
  | inside _ _ comes => exact comes.kept.2
  | bounced _ _ _ comes =>
    obtain ⟨hue, hbounced⟩ := f.exists_bouncedOff source
    rw [hbounced] at comes
    exact comes.kept.2

variable {axis : Axis} {t : Tick Flight σ}

/-- What a flight proposes inside the band it comes to straight away. -/
theorem movesOn_of_inside (within : (Stage.edgeHit f.proposed).any = false)
    (comes : f.decay.Comes f.proposed [] source t) : f.MovesOn axis t := by
  have hin : ¬ Beyond (f.proposed.on axis) := fun h => by
    rw [← Stage.outsideBand_iff, ← Stage.on_edgeHit] at h
    exact Bool.noConfusion (within.symm.trans (Stage.EdgeHit.any_of_on axis h))
  have hheading : t.state.heading = f.heading := comes.kept.1
  refine ⟨fun hbounces => absurd hbounces.2.1 hin, fun _ => by rw [hheading], ?_⟩
  rcases comes.pos_eq with hstays | hcomes
  · exact .inl hstays
  · exact .inr (.inr ⟨hin, by rw [hcomes]⟩)

/-- A flight that bounces turns around on the axes that were hit, and is put onto their margins. -/
theorem Comes.on_bounced (axis : Axis)
    (comes : (f.bouncedOff source).1.Comes f.rebound
      [.bounced (f.bouncedOff source).1.tintHue] (f.bouncedOff source).2 t) :
    t.state.heading.on axis = (if (Stage.edgeHit f.proposed).on axis then -(f.heading.on axis)
        else f.heading.on axis) ∧
      (t.state.pos = f.pos ∧ (∃ cause, t.verdict = some (.fail cause)) ∨
        t.state.pos.on axis = if (Stage.edgeHit f.proposed).on axis
          then Stage.clampToBand (f.proposed.on axis) else f.proposed.on axis) := by
  obtain ⟨hue, hbounced⟩ := f.exists_bouncedOff source
  rw [hbounced] at comes
  constructor
  · rw [comes.kept.1]
    exact Stage.on_reflect axis f.heading _
  · refine comes.pos_eq.imp_right fun hcomes => ?_
    rw [hcomes]
    exact Stage.on_clampHit axis _ _

theorem movesOn_of_bounced (flying : f.decay.isStalled = false)
    (bounces : f.behaviors.bounces = true)
    (comes : (f.bouncedOff source).1.Comes f.rebound
      [.bounced (f.bouncedOff source).1.tintHue] (f.bouncedOff source).2 t) : f.MovesOn axis t := by
  obtain ⟨hheading, hpos⟩ := comes.on_bounced axis
  by_cases hbeyond : Beyond (f.proposed.on axis)
  · have hhit : (Stage.edgeHit f.proposed).on axis = true := by
      rwa [Stage.on_edgeHit, Stage.outsideBand_iff]
    have hbounces : f.BouncesOn axis := ⟨flying, hbeyond, Bool.and_eq_true_iff.mp bounces⟩
    rw [if_pos hhit] at hheading hpos
    refine ⟨fun _ => hheading, fun hnot => absurd hbounces hnot, hpos.imp_right fun hcomes => ?_⟩
    rw [hcomes]
    exact .inl ⟨hbounces, Stage.clampToBand_of_beyond hbeyond⟩
  · have hmiss : ¬ (Stage.edgeHit f.proposed).on axis = true := by
      rwa [Stage.on_edgeHit, Stage.outsideBand_iff]
    rw [if_neg hmiss] at hheading hpos
    exact ⟨fun hbounces => absurd hbounces.2.1 hbeyond, fun _ => hheading,
      hpos.imp_right fun hcomes => .inr ⟨hbeyond, hcomes⟩⟩

/-- **Every tick moves like this**, on each axis. -/
theorem movesOn_tick (f : Flight) (source : σ) (axis : Axis) :
    f.MovesOn axis (f.tick source) := by
  have hticks := f.ticks_tick source
  generalize f.tick source = t at hticks ⊢
  cases hticks with
  | stalled gone =>
    exact movesOn_of_stays (fun h => Bool.noConfusion (gone.symm.trans h.1)) rfl rfl ⟨_, rfl⟩
  | edge _ _ leaves =>
    refine movesOn_of_stays (fun h => ?_) rfl rfl ⟨_, rfl⟩
    rw [FlightBehaviors.bounces, h.2.2.1, h.2.2.2] at leaves
    cases leaves
  | inside _ within comes => exact movesOn_of_inside within comes
  | bounced flying _ bounces comes => exact movesOn_of_bounced flying bounces comes

/-! ## Aloft -/

/-- A component of a heading that can be turned around and back, and has a product with any
length. -/
def Steers (h : Float32) : Prop :=
  h.isFinite = true ∧ (h == 0) = false ∧ -h ≠ h ∧ - -h = h

instance (h : Float32) : Decidable (Steers h) :=
  inferInstanceAs (Decidable (_ ∧ _ ∧ _ ∧ _))

/-- The components of the headings that flights start with are such, and so are those turned
around. -/
theorem steers_heading (behaviors : FlightBehaviors) (axis : Axis) :
    Steers (behaviors.heading.on axis) ∧ Steers (-(behaviors.heading.on axis)) := by
  cases axis with
  | x =>
    change Steers 1 ∧ Steers (-1)
    decide +kernel
  | y =>
    change Steers (if behaviors.up && !behaviors.forever then -1 else 0.5) ∧
      Steers (-(if behaviors.up && !behaviors.forever then -1 else 0.5))
    split <;> decide +kernel

/-- **What holds of a flight after every tick**: it is within the band, heads as at the start or the
opposite way on each axis, and has a speed. -/
structure Aloft (behaviors : FlightBehaviors) (f : Flight) : Prop where
  behaviors_eq : f.behaviors = behaviors
  pos : ∀ axis, 10 ≤ f.pos.on axis ∧ f.pos.on axis ≤ 90
  heading : ∀ axis, f.heading.on axis = behaviors.heading.on axis ∨
    f.heading.on axis = -(behaviors.heading.on axis)
  speed : f.speed.isNaN = false

theorem aloft_start (sky : Sky) (behaviors : FlightBehaviors) :
    Aloft behaviors (start sky behaviors) where
  behaviors_eq := rfl
  pos axis := by cases axis <;> exact (by decide : (10 : Float32) ≤ 50 ∧ (50 : Float32) ≤ 90)
  heading _ := .inl rfl
  speed := (by decide : startSpeed.isNaN = false)

/-- A speed that decays is a speed. -/
theorem isNaN_speed_decay (h : f.speed.isNaN = false) : f.decay.speed.isNaN = false := by
  change (if f.behaviors.forever then f.speed else f.speed * speedDecay).isNaN = false
  split
  · exact h
  · exact Single.isNaN_mul h (by decide) (by decide)

namespace Aloft

variable {behaviors : FlightBehaviors}

theorem steers (h : Aloft behaviors f) (axis : Axis) : Steers (f.heading.on axis) := by
  rcases h.heading axis with hsame | hopposite
  · rw [hsame]
    exact (steers_heading behaviors axis).1
  · rw [hopposite]
    exact (steers_heading behaviors axis).2

/-- **What a flight proposes is a number.** -/
theorem isNaN_proposed (h : Aloft behaviors f) (axis : Axis) :
    (f.proposed.on axis).isNaN = false := by
  rw [proposed, Stage.on_shift, Single.mul_comm]
  obtain ⟨hlow, hhigh⟩ := h.pos axis
  obtain ⟨hfinite, hnonzero, -⟩ := h.steers axis
  exact Single.isNaN_add (Single.isFinite_of_le_of_le hlow hhigh (by decide) (by decide))
    (Single.isNaN_mul (isNaN_speed_decay h.speed) hfinite hnonzero)

/-- **A tick keeps a flight aloft.** -/
theorem tick (h : Aloft behaviors f) (source : σ) : Aloft behaviors (f.tick source).state where
  behaviors_eq := (f.speed_tick source).2.trans h.behaviors_eq
  speed := by
    rw [(f.speed_tick source).1]
    exact isNaN_speed_decay h.speed
  pos axis := by
    rcases (f.movesOn_tick source axis).landed with ⟨hstays, -⟩ | ⟨-, hmargin⟩ | ⟨hin, hmoves⟩
    · rw [hstays]
      exact h.pos axis
    · rcases hmargin with ⟨-, hlow⟩ | ⟨-, hhigh⟩
      · rw [hlow]
        decide
      · rw [hhigh]
        decide
    · rw [hmoves]
      exact Stage.in_band_of_not_beyond (h.isNaN_proposed axis) hin
  heading axis := by
    have hmoves := f.movesOn_tick source axis
    by_cases hbounces : f.BouncesOn axis
    · rw [hmoves.turned hbounces]
      rcases h.heading axis with hsame | hopposite
      · exact .inr (congrArg _ hsame)
      · exact .inl (by rw [hopposite, (steers_heading behaviors axis).1.2.2.2])
    · rw [hmoves.straight hbounces]
      exact h.heading axis

end Aloft

/-- **A flight keeps to its band and turns around at its edges.**  After any number of ticks it is
within the band on both axes, and heads as at the start or the opposite way on each.  The next tick
turns it around on just the axes on which it bounces, and if it does not fail, leaves it on the
margin that it crossed there. -/
theorem kept_in_band (sky : Sky) (behaviors : FlightBehaviors) (source : σ) (n : ℕ) (axis : Axis) :
    let f := (Tick.after Flight.tick n (start sky behaviors) source).1
    let t := Tick.nth Flight.tick n (start sky behaviors) source
    f.behaviors = behaviors ∧
      (10 ≤ f.pos.on axis ∧ f.pos.on axis ≤ 90) ∧
      (f.heading.on axis = (start sky behaviors).heading.on axis ∨
        f.heading.on axis = -((start sky behaviors).heading.on axis)) ∧
      (t.state.heading.on axis = -(f.heading.on axis) ↔ f.BouncesOn axis) ∧
      (t.state.heading.on axis = f.heading.on axis ↔ ¬ f.BouncesOn axis) ∧
      (f.BouncesOn axis → (∀ cause, t.verdict ≠ some (.fail cause)) →
        f.proposed.on axis < 10 ∧ t.state.pos.on axis = 10 ∨
          90 < f.proposed.on axis ∧ t.state.pos.on axis = 90) := by
  intro f t
  have h : Aloft behaviors f :=
    Tick.after_induction (fun _ source h => h.tick source) (aloft_start sky behaviors) n
  have hmoves : f.MovesOn axis t := f.movesOn_tick _ axis
  obtain ⟨-, -, hturn, -⟩ := h.steers axis
  refine ⟨h.behaviors_eq, h.pos axis, h.heading axis, ⟨fun hturned => ?_, hmoves.turned⟩,
    ⟨fun hsame hbounces => ?_, hmoves.straight⟩, fun hbounces hgoes => ?_⟩
  · by_contra hnot
    exact hturn (hturned.symm.trans (hmoves.straight hnot))
  · exact hturn ((hmoves.turned hbounces).symm.trans hsame)
  · rcases hmoves.landed with ⟨-, cause, hfails⟩ | ⟨-, hmargin⟩ | ⟨hin, -⟩
    · exact absurd hfails (hgoes cause)
    · exact hmargin
    · exact absurd hbounces.2.1 hin

end Flight

end BlockCoding
