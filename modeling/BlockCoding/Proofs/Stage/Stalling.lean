import BlockCoding.Proofs.Stage.Band
import Mathlib.Data.Nat.Find

/-!
# Proofs/Stage/Stalling — a flight that does not go on forever stalls

Without the repetition the speed decays in every tick, whatever else the tick does: the speed after
`n` ticks is `faded n`, for any sky, any source and any other behaviors (`faded_after`).  A tick
stalls exactly if the decayed speed is too low (`verdict_tick_eq_stalled_iff`), and `faded` comes to
that in the 194th tick and not before.  So that tick stalls, unless the run has ended earlier for
another reason (`stalls_in_time`).
-/

namespace BlockCoding.Flight

variable {σ : Type} [RandomSource σ]

/-- **The speed after `n` ticks that let it decay.** -/
def faded : ℕ → Float32
  | 0 => startSpeed
  | n + 1 => faded n * speedDecay

/-! ## What a tick does to the speed -/

/-- **A tick stalls exactly if the decayed speed is too low.** -/
theorem verdict_tick_eq_stalled_iff (f : Flight) (source : σ) :
    (f.tick source).verdict = some (.fail .stalled) ↔ f.decay.isStalled = true := by
  have hcomes {g : Flight} {next : Point} {events : List Event} {source : σ} {t : Tick Flight σ}
      (h : g.Comes next events source t) : t.verdict ≠ some (.fail .stalled) := by
    cases h <;> simp
  have hticks := f.ticks_tick source
  generalize f.tick source = t at hticks ⊢
  cases hticks with
  | stalled gone => exact iff_of_true rfl gone
  | edge flying => exact iff_of_false (by simp) (by simp [flying])
  | inside flying _ comes | bounced flying _ _ comes =>
    exact iff_of_false (hcomes comes) (by simp [flying])

variable {behaviors : FlightBehaviors}

/-- **After `n` ticks the speed has faded `n` times**, whatever the ticks came to. -/
theorem faded_after (sky : Sky) (source : σ) (hfades : behaviors.forever = false) (n : ℕ) :
    (Tick.after tick n (start sky behaviors) source).1.speed = faded n ∧
      (Tick.after tick n (start sky behaviors) source).1.behaviors = behaviors := by
  induction n with
  | zero => exact ⟨rfl, rfl⟩
  | succ n ih =>
    obtain ⟨hspeed, hbehaviors⟩ := ih
    rw [Tick.after_succ, Tick.nth]
    obtain ⟨hdecays, hkeeps⟩ :=
      speed_tick (Tick.after tick n (start sky behaviors) source).1
        (Tick.after tick n (start sky behaviors) source).2
    refine ⟨?_, hkeeps.trans hbehaviors⟩
    rw [hdecays, decay, hbehaviors, hfades, hspeed]
    rfl

/-- The tick after `n` ticks stalls exactly if the speed is too low once it has faded again. -/
theorem verdict_nth_eq_stalled_iff (sky : Sky) (source : σ) (hfades : behaviors.forever = false)
    (n : ℕ) : (Tick.nth tick n (start sky behaviors) source).verdict = some (.fail .stalled) ↔
      faded (n + 1) < stallSpeed := by
  obtain ⟨hspeed, hbehaviors⟩ := faded_after sky source hfades n
  rw [Tick.nth, verdict_tick_eq_stalled_iff, isStalled, decay, hbehaviors, hfades, hspeed]
  simp [faded]

/-! ## How long the speed lasts -/

/-- The speed at the start is enough for 193 ticks. -/
theorem not_faded_lt_stallSpeed {n : ℕ} (hpos : 0 < n) (hn : n ≤ 193) :
    ¬ faded n < stallSpeed := by
  have hlasts : holdsFor (· * speedDecay) (fun _ speed => !(speed < stallSpeed)) 193 0 startSpeed
      = true := by
    decide +kernel
  simpa using holds_of_holdsFor (x := faded) (fun _ => rfl) hlasts hpos (by omega)

theorem faded_lt_stallSpeed : faded 194 < stallSpeed := by decide +kernel

/-- **A flight that does not go on forever ends with its 194th tick at the latest.**  Some tick up
to that one is the first with a verdict, and it stalls exactly if it is the 194th. -/
theorem stalls_in_time (sky : Sky) (behaviors : FlightBehaviors) (source : σ)
    (hfades : behaviors.forever = false) :
    let t (n : ℕ) := Tick.nth tick n (start sky behaviors) source
    ∃ n < 194, (∀ m < n, (t m).verdict = none) ∧ (t n).verdict ≠ none ∧
      ((t n).verdict = some (.fail .stalled) ↔ n = 193) := by
  intro t
  have hlast : (t 193).verdict = some (.fail .stalled) :=
    (verdict_nth_eq_stalled_iff sky source hfades 193).mpr faded_lt_stallSpeed
  have hends : ∃ n, (t n).verdict ≠ none := ⟨193, by simp [hlast]⟩
  have hle : Nat.find hends ≤ 193 := Nat.find_le (by simp [hlast])
  refine ⟨Nat.find hends, Nat.lt_succ_of_le hle, fun m hm => ?_, Nat.find_spec hends, ?_⟩
  · simpa using Nat.find_min hends hm
  · constructor
    · intro hstalls
      by_contra hne
      exact not_faded_lt_stallSpeed (n := Nat.find hends + 1) (by omega) (by omega)
        ((verdict_nth_eq_stalled_iff sky source hfades _).mp hstalls)
    · intro heq
      rw [heq]
      exact hlast

/-- A flight that bounces under an empty sky, with its star out of reach. -/
theorem stalls_in_time_bouncing :
    let behaviors := { FlightBehaviors.none with ifEdge := true, bounce := true }
    let t (n : ℕ) := Tick.nth tick n (start ⟨⟨-50, -50⟩, []⟩ behaviors) (Pcg.ofSeed 0)
    behaviors.forever = false ∧ ∃ n < 194, (∀ m < n, (t m).verdict = none) ∧
      (t n).verdict ≠ none ∧ ((t n).verdict = some (.fail .stalled) ↔ n = 193) :=
  ⟨rfl, stalls_in_time _ _ _ rfl⟩

end BlockCoding.Flight
