import BlockCoding.Proofs.Run.Soundness

/-!
# Proofs/Run/Stepping — a run stepped again and again

`GridRun.stepTimes n` asks a run for `n` steps, whether or not it is over: its results are the
states that stepping can reach.  Asking a run that is over changes nothing, so this is the same as
stopping at the verdict (`steps_eq_stepTimes`).  `Sound.exists_stepTimes_of_open` is the induction
over all of these states: what every step of a sound run keeps holds throughout.
-/

namespace BlockCoding.GridRun

/-- **The run after `n` steps**, with all events that they raise. -/
def stepTimes : Nat → GridRun → Except Fault (List Event × GridRun)
  | 0, r => pure ([], r)
  | n + 1, r => do
    let (events, r) ← r.step
    let (later, r) ← stepTimes n r
    return (events ++ later, r)

/-- One step, and the others after it. -/
theorem stepTimes_succ {r r' : GridRun} {events : List Event} (h : r.step = .ok (events, r'))
    (n : Nat) : stepTimes (n + 1) r = (stepTimes n r').map fun s => (events ++ s.1, s.2) := by
  simp only [stepTimes, h, ok_bind]
  cases stepTimes n r' <;> rfl

/-- Some steps, and one after them. -/
theorem stepTimes_concat {n : Nat} {r q r' : GridRun} {told events : List Event}
    (hn : stepTimes n r = .ok (told, q)) (h : q.step = .ok (events, r')) :
    stepTimes (n + 1) r = .ok (told ++ events, r') := by
  induction n generalizing r told with
  | zero =>
    obtain ⟨rfl, rfl⟩ := Prod.mk.inj (Except.ok.inj hn)
    rw [stepTimes_succ h, stepTimes, pure_eq_ok, Except.map, List.append_nil, List.nil_append]
  | succ n ih =>
    rw [stepTimes] at hn
    obtain ⟨⟨now, r₁⟩, hstep, hn⟩ := bind_eq_ok.mp hn
    obtain ⟨⟨later, r₂⟩, hlater, hn⟩ := bind_eq_ok.mp hn
    obtain ⟨rfl, rfl⟩ := Prod.mk.inj (Except.ok.inj hn)
    rw [stepTimes_succ hstep, ih hlater, List.append_assoc]
    rfl

/-! ## A run that is over -/

theorem step_of_verdict {r : GridRun} {verdict : Verdict} (h : r.verdict = some verdict) :
    r.step = .ok ([], r) := by
  rw [step, h]
  rfl

theorem stepTimes_of_verdict {r : GridRun} {verdict : Verdict} (h : r.verdict = some verdict)
    (n : Nat) : stepTimes n r = .ok ([], r) := by
  induction n with
  | zero => rfl
  | succ n ih => rw [stepTimes_succ (step_of_verdict h), ih]; rfl

/-- **Stopping at the verdict or not comes to the same.** -/
theorem steps_eq_stepTimes (n : Nat) (r : GridRun) : steps n r = stepTimes n r := by
  induction n generalizing r with
  | zero => rfl
  | succ n ih =>
    rw [steps, stepTimes]
    cases r.step with
    | error fault => rfl
    | ok stepped =>
      obtain ⟨events, r'⟩ := stepped
      cases hv : r'.verdict with
      | none => simp only [ok_bind, hv, ih]; rfl
      | some verdict => simp [hv, stepTimes_of_verdict hv]

/-- A run that comes to its verdict within `n` steps comes to it with one of them, and not
before. -/
theorem exists_last_step {n : Nat} {r r' : GridRun} {events : List Event} {verdict : Verdict}
    (hn : stepTimes n r = .ok (events, r')) (hv : r'.verdict = some verdict) :
    ∃ k ≤ n, stepTimes k r = .ok (events, r') ∧
      ∀ j < k, ∃ before q, stepTimes j r = .ok (before, q) ∧ q.verdict = none := by
  induction n generalizing r events with
  | zero => exact ⟨0, Nat.le_refl 0, hn, fun j hj => absurd hj (Nat.not_lt_zero j)⟩
  | succ n ih =>
    cases hr : r.verdict with
    | some v =>
      rw [stepTimes_of_verdict hr] at hn
      exact ⟨0, Nat.zero_le _, hn, fun j hj => absurd hj (Nat.not_lt_zero j)⟩
    | none =>
      rw [stepTimes] at hn
      obtain ⟨⟨now, r₁⟩, hstep, hn⟩ := bind_eq_ok.mp hn
      obtain ⟨⟨later, r₂⟩, hlater, hn⟩ := bind_eq_ok.mp hn
      obtain ⟨rfl, rfl⟩ := Prod.mk.inj (Except.ok.inj hn)
      obtain ⟨k, hk, hlast, hbefore⟩ := ih hlater
      refine ⟨k + 1, Nat.succ_le_succ hk, by rw [stepTimes_succ hstep, hlast]; rfl, ?_⟩
      intro j hj
      cases j with
      | zero => exact ⟨[], r, rfl, hr⟩
      | succ j =>
        obtain ⟨before, q, hq, hnone⟩ := hbefore j (Nat.lt_of_succ_lt_succ hj)
        exact ⟨now ++ before, q, by rw [stepTimes_succ hstep, hq]; rfl, hnone⟩

/-! ## What every step keeps -/

/-- A sound run that is not over takes one of the steps there are, and stays sound. -/
theorem Sound.exists_stepped {r : GridRun} (h : r.Sound) (hv : r.verdict = none) :
    ∃ events r', r.step = .ok (events, r') ∧ r.Stepped events r' ∧ r'.Sound := by
  obtain ⟨events, r', hstep, hsound, -⟩ := h.exists_step hv
  obtain ⟨now, next, hstep', hstepped⟩ :=
    GridRun.exists_stepped h.tiled h.inside.not_onRim hv (h.coherent hv)
  obtain ⟨rfl, rfl⟩ := Prod.mk.inj (Except.ok.inj (hstep'.symm.trans hstep))
  exact ⟨now, next, hstep, hstepped, hsound⟩

/-- **What every step keeps holds throughout.**  No number of steps of a sound run meets a fault,
and whatever holds of the run and the events so far, and is kept by every step that a run which is
not over takes, holds in the end. -/
theorem Sound.exists_stepTimes_of_open {Kept : List Event → GridRun → Prop}
    (hkept : ∀ {told : List Event} {r r' : GridRun} {events : List Event}, r.Sound →
      r.verdict = none → Kept told r → r.Stepped events r' → Kept (told ++ events) r')
    {r : GridRun} (h : r.Sound) {told : List Event} (hr : Kept told r) (n : Nat) :
    ∃ events r', stepTimes n r = .ok (events, r') ∧ r'.Sound ∧ Kept (told ++ events) r' := by
  induction n generalizing r told with
  | zero => exact ⟨[], r, rfl, h, by rwa [List.append_nil]⟩
  | succ n ih =>
    cases hv : r.verdict with
    | some verdict =>
      exact ⟨[], r, stepTimes_of_verdict hv _, h, by rwa [List.append_nil]⟩
    | none =>
      obtain ⟨events, r', hstep, hstepped, hsound⟩ := h.exists_stepped hv
      obtain ⟨later, r'', hlater, hsound', hend⟩ := ih hsound (hkept h hv hr hstepped)
      refine ⟨events ++ later, r'', by rw [stepTimes_succ hstep, hlater]; rfl, hsound', ?_⟩
      rwa [← List.append_assoc]

/-- The same for what every step keeps, whether or not the run is over. -/
theorem Sound.exists_stepTimes {Kept : List Event → GridRun → Prop}
    (hkept : ∀ {told : List Event} {r r' : GridRun} {events : List Event}, r.Sound → Kept told r →
      r.Stepped events r' → Kept (told ++ events) r')
    {r : GridRun} (h : r.Sound) {told : List Event} (hr : Kept told r) (n : Nat) :
    ∃ events r', stepTimes n r = .ok (events, r') ∧ r'.Sound ∧ Kept (told ++ events) r' :=
  h.exists_stepTimes_of_open (fun hr _ hold hs => hkept hr hold hs) hr n

end BlockCoding.GridRun
