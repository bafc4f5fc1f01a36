import BlockCoding.Pacer

/-!
# Proofs/Pacer — a clock that is stopped

Neither feeding time nor looking for a due step starts or stops a pacer, and one that is `Stopped`
does not change at all (`advance_of_stopped`, `deliverUpTo_of_stopped`).
-/

namespace BlockCoding.Pacer

/-- A pacer that is stopped, with no step counted. -/
def Stopped (p : Pacer) : Prop := p.running = false ∧ p.burst = 0

theorem stopped_cancel (p : Pacer) : p.cancel.Stopped := ⟨rfl, rfl⟩

theorem stopped_new (interval : Float32) (maxSteps : UInt32) : (new interval maxSteps).Stopped :=
  ⟨rfl, rfl⟩

@[simp] theorem running_advance (p : Pacer) (dt : Float32) :
    (p.advance dt).running = p.running := by
  rw [advance]
  split <;> rfl

@[simp] theorem running_delayNext (p : Pacer) (extra : Float32) :
    (p.delayNext extra).running = p.running := by
  rw [delayNext]
  split <;> rfl

@[simp] theorem running_nextDue (p : Pacer) : p.nextDue.2.running = p.running := by
  rw [nextDue]
  split
  · rfl
  · split <;> rfl

/-- A stopped pacer takes no time. -/
theorem advance_of_stopped {p : Pacer} (h : p.Stopped) (dt : Float32) : p.advance dt = p := by
  obtain ⟨interval, accumulator, running, maxSteps, burst⟩ := p
  obtain ⟨rfl, rfl⟩ := h
  rfl

/-- A pacer that does not run has nothing due. -/
theorem nextDue_of_not_running {p : Pacer} (h : p.running = false) : p.nextDue = (false, p) := by
  rw [nextDue, h]
  rfl

/-- Only a pacer that runs has a step due. -/
theorem running_of_nextDue {p q : Pacer} (h : p.nextDue = (true, q)) :
    p.running = true ∧ q.running = true := by
  have hq := running_nextDue p
  rw [h] at hq
  cases hp : p.running with
  | true => exact ⟨rfl, hq.trans hp⟩
  | false =>
    rw [nextDue_of_not_running hp] at h
    cases h

/-- Delivering with a stopped pacer does nothing. -/
theorem deliverUpTo_of_stopped {σ ε : Type} {p : Pacer} (h : p.Stopped)
    (step : Pacer → σ → Except ε (Pacer × σ)) (n : Nat) (s : σ) :
    deliverUpTo step n p s = .ok (p, s) := by
  have hdue := nextDue_of_not_running h.1
  cases n with
  | zero => rw [deliverUpTo, hdue]; rfl
  | succ n => rw [deliverUpTo, hdue]; rfl

end BlockCoding.Pacer
