import BlockCoding.Proofs.Pacer.Bursts
import BlockCoding.Proofs.Single.Rounding

/-!
# Proofs/Pacer/Elapsed — no step without elapsed time

What a pacer has accumulated stays a number below a ceiling as long as numbers are fed to it
(`Clear`): feeding adds something between nothing and the longest time one feeding accepts, and at
the ceiling that is rounded away; pushing back and handing out steps only take away.  Then a step is
handed out only when an interval has been accumulated (`steps_need_time`).  Feeding a running pacer
what is no number leaves it with no number either, since clamping lets that through, and such an
accumulator is not below any interval: steps come out of no time at all
(`steps_without_time`).
-/

namespace BlockCoding.Pacer

/-- What no accumulator exceeds: here the longest time of one feeding is rounded away. -/
def ceiling : Float32 := 16777216

theorem ceiling_add_maxFeed : ceiling + maxFeed ≤ ceiling := by decide +kernel

/-- **An accumulator that is a number below the ceiling**, and an interval that takes some time. -/
structure Clear (p : Pacer) : Prop where
  interval : 0 ≤ p.interval
  le : p.accumulator ≤ ceiling

theorem Clear.number {p : Pacer} (h : p.Clear) : p.accumulator.isNaN = false :=
  (Single.le_iff.mp h.le).1.1

/-- No operation feeds what is no number to a pacer that runs. -/
def FedNumbers (p : Pacer) : List Operation → Prop
  | [] => True
  | operation :: later => (p.running = true → ∀ dt, operation = .advance dt → dt.isNaN = false) ∧
      (p.perform operation).FedNumbers later

/-! ## Feeding -/

/-- **One feeding adds something between nothing and the longest time it accepts.** -/
theorem advance_mem {p : Pacer} (h : p.accumulator.isNaN = false) {dt : Float32}
    (hdt : dt.isNaN = false) : p.accumulator ≤ (p.advance dt).accumulator ∧
      (p.advance dt).accumulator ≤ p.accumulator + maxFeed := by
  have hmax : (0 : Float32) ≤ maxFeed ∧ maxFeed.isFinite = true := by decide
  have hsum : (p.accumulator + maxFeed).isNaN = false := Single.isNaN_add_right h hmax.2
  simp only [advance]
  split
  · obtain ⟨hlow, hhigh⟩ := Single.clamp_mem hmax.1 hdt
    have hfinite := Single.isFinite_of_le_of_le hlow hhigh (by decide) hmax.2
    have hfed := Single.isNaN_add_right h hfinite
    exact ⟨Single.le_add h hlow hfed, Single.add_le_add (Single.le_refl h) hhigh hfed hsum⟩
  · exact ⟨Single.le_refl h, Single.le_add h hmax.1 hsum⟩

/-- **A feeding spoils the accumulator exactly if the pacer runs and is fed no number.** -/
theorem isNaN_advance_iff {p : Pacer} (h : p.accumulator.isNaN = false) (dt : Float32) :
    (p.advance dt).accumulator.isNaN = true ↔ p.running = true ∧ dt.isNaN = true := by
  cases hdt : dt.isNaN with
  | false =>
    have hfed := (Single.le_iff.mp (advance_mem h hdt).1).1.2
    exact iff_of_false (Bool.eq_false_iff.mp hfed) fun hboth => Bool.false_ne_true hboth.2
  | true =>
    have hclamp : (Single.clamp 0 maxFeed dt).isNaN = true :=
      (Single.isNaN_clamp (by decide) (by decide)).trans hdt
    have hnone : (p.accumulator + Single.clamp 0 maxFeed dt).isNaN = true := by
      rw [Single.add_of_isNaN _ hclamp]
      decide
    rw [advance]
    split
    · next hruns => exact iff_of_true hnone ⟨hruns, rfl⟩
    · next hruns => exact iff_of_false (Bool.eq_false_iff.mp h) fun hboth => hruns hboth.1

namespace Clear

variable {p : Pacer}

theorem new (interval : Float32) (maxSteps : UInt32) : (new interval maxSteps).Clear where
  interval := Single.le_trans (by decide) (Single.right_le_larger interval (by decide))
  le := (by decide : (0 : Float32) ≤ ceiling)

/-- Feeding a number keeps the accumulator below the ceiling. -/
theorem advance (h : p.Clear) {dt : Float32} (hdt : dt.isNaN = false) :
    (p.advance dt).accumulator ≤ ceiling := by
  have hhigh := (advance_mem h.number hdt).2
  have hraised : p.accumulator + maxFeed ≤ ceiling + maxFeed :=
    Single.add_le_add h.le (Single.le_refl (by decide)) (Single.le_iff.mp hhigh).1.2 (by decide)
  exact Single.le_trans hhigh (Single.le_trans hraised ceiling_add_maxFeed)

/-- Taking away what is not negative keeps the accumulator below the ceiling. -/
theorem sub_le (h : p.Clear) {x : Float32} (hx : 0 ≤ x) : p.accumulator - x ≤ ceiling :=
  Single.le_trans (Single.sub_le h.number hx (Single.isNaN_sub h.le (by decide) hx)) h.le

/-- **Every operation keeps the accumulator clear**, as long as a running pacer is fed numbers. -/
theorem perform (h : p.Clear) {operation : Operation}
    (hfed : p.running = true → ∀ dt, operation = .advance dt → dt.isNaN = false) :
    (p.perform operation).Clear := by
  refine ⟨(p.kept_perform operation).1.symm ▸ h.interval, ?_⟩
  cases operation with
  | start | cancel => exact (new 0 0).le
  | delayNext extra =>
    simp only [Pacer.perform, delayNext]
    split
    · exact h.sub_le (Single.right_le_larger extra (by decide))
    · exact h.le
  | advance dt =>
    cases hruns : p.running with
    | true => exact h.advance (hfed hruns dt rfl)
    | false =>
      simp only [Pacer.perform, Pacer.advance, hruns, Bool.false_eq_true, if_false]
      exact h.le
  | nextDue =>
    have hlooks := p.looks_nextDue
    rw [Pacer.perform]
    generalize p.nextDue = found at hlooks ⊢
    cases hlooks with
    | waiting => exact h.le
    | dropped => exact Single.le_trans (Single.smaller_le_left h.number _) h.le
    | handed => exact h.sub_le h.interval

/-- **Every sequence of operations keeps it clear**, as long as a running pacer is fed numbers. -/
theorem history (h : p.Clear) {operations : List Operation} (hfed : p.FedNumbers operations) :
    (p.history operations).Clear := by
  induction operations generalizing p with
  | nil => exact h
  | cons operation operations ih => exact ih (h.perform hfed.1) hfed.2

end Clear

/-! ## Steps and time -/

/-- **No step without elapsed time**, as long as a running pacer is fed numbers: what has been
accumulated is a number, one feeding adds something between nothing and the longest time it accepts,
and a step is handed out just when an interval has been accumulated and more steps are allowed.
Anything else that is fed leaves a pacer that runs without a number, and only that does. -/
theorem steps_need_time (interval : Float32) (maxSteps : UInt32) (operations : List Operation)
    (hfed : (new interval maxSteps).FedNumbers operations) :
    let p := (new interval maxSteps).history operations
    p.accumulator.isNaN = false ∧
      (∀ dt, dt.isNaN = false → p.accumulator ≤ (p.advance dt).accumulator ∧
        (p.advance dt).accumulator ≤ p.accumulator + maxFeed) ∧
      (∀ dt, (p.advance dt).accumulator.isNaN = true ↔ p.running = true ∧ dt.isNaN = true) ∧
      (p.nextDue.1 = true ↔
        p.running = true ∧ p.interval ≤ p.accumulator ∧ p.burst < p.maxSteps) := by
  intro p
  have h : p.Clear := (Clear.new interval maxSteps).history hfed
  have hinterval : p.interval.isNaN = false := (Single.le_iff.mp h.interval).1.2
  refine ⟨h.number, fun dt hdt => advance_mem h.number hdt, isNaN_advance_iff h.number, ?_⟩
  rw [nextDue_fst_iff]
  have hdue : ¬ p.accumulator < p.interval ↔ p.interval ≤ p.accumulator :=
    ⟨Single.le_of_not_lt h.number hinterval, fun hle hlt => Single.not_le_of_lt hlt hle⟩
  rw [hdue]

/-- A clock that is fed half an interval, and then a whole one. -/
theorem steps_need_time_half :
    let operations := [.start, .advance 0.05]
    (new 0.1 3).FedNumbers operations ∧
      let p := (new 0.1 3).history operations
      p.nextDue.1 = false ∧ (p.advance 0.1).nextDue.1 = true ∧
        p.accumulator ≤ (p.advance 0.1).accumulator ∧ ¬ p.interval ≤ p.accumulator := by
  intro operations
  have hfed : (new 0.1 3).FedNumbers operations := by
    refine ⟨fun _ dt hdt => ?_, fun _ dt hdt => ?_, trivial⟩
    · cases hdt
    · obtain rfl := Operation.advance.inj hdt
      decide
  obtain ⟨-, hadds, -, hdue⟩ := steps_need_time 0.1 3 operations hfed
  refine ⟨hfed, by decide +kernel, by decide +kernel, (hadds 0.1 (by decide)).1, ?_⟩
  decide +kernel

/-- **Steps come out of no time** once a pacer that runs is fed what is no number: its accumulator
is none either, and no interval has been accumulated, but a step is handed out. -/
theorem steps_without_time :
    let p := (new 0.03 3).history [.start, .advance (Float32.ofBits 0x7fc00000)]
    p.accumulator.isNaN = true ∧ ¬ p.interval ≤ p.accumulator ∧ p.nextDue.1 = true := by
  decide +kernel

end BlockCoding.Pacer
