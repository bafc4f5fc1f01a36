import BlockCoding.Proofs.Pacer
import BlockCoding.Proofs.Single.Clamping

/-!
# Proofs/Pacer/Bursts — steps come in bounded bursts

What may happen to a pacer is an `Operation`; `history` lets a sequence of them happen and
`handedOut` counts the steps that it hands out.  A pacer hands out a step only while it runs and has
some `allowance` left, each step takes one away, and only starting, stopping and feeding give it
back (`allowance_perform`).  So the number of steps in a stretch without any of these is bounded
(`handedOut_le`), a delivery is the loop that goes on until nothing is due
(`delivers_of_deliverUpTo`), and what is left then is one interval at most
(`accumulator_le_interval`).
-/

namespace BlockCoding.Pacer

/-! ## Operations -/

/-- What may happen to a pacer. -/
inductive Operation where
  | start
  | cancel
  | delayNext (extra : Float32)
  | advance (dt : Float32)
  | nextDue
  deriving Repr

/-- Lets one operation happen. -/
def perform (p : Pacer) : Operation → Pacer
  | .start => p.start
  | .cancel => p.cancel
  | .delayNext extra => p.delayNext extra
  | .advance dt => p.advance dt
  | .nextDue => p.nextDue.2

/-- **Lets a sequence of operations happen.** -/
def history (p : Pacer) (operations : List Operation) : Pacer := operations.foldl perform p

/-- Whether an operation hands out a step. -/
def handsOut (p : Pacer) : Operation → Bool
  | .nextDue => p.nextDue.1
  | _ => false

/-- **The number of steps that a sequence of operations hands out.** -/
def handedOut (p : Pacer) : List Operation → ℕ
  | [] => 0
  | operation :: later => (p.handsOut operation).toNat + (p.perform operation).handedOut later

/-- Operations that neither start nor stop a pacer, nor feed it. -/
def Operation.Idles (operation : Operation) : Prop :=
  operation = .nextDue ∨ ∃ extra, operation = .delayNext extra

/-! ## What looking for a due step does -/

/-- **What looking for a due step can come to.** -/
inductive Looks (p : Pacer) : Bool × Pacer → Prop where
  /-- Nothing is due. -/
  | waiting (idle : p.running = true → p.accumulator < p.interval) : Looks p (false, p)
  /-- A step is due, but no more are allowed. -/
  | dropped (runs : p.running = true) (due : ¬ p.accumulator < p.interval)
      (full : p.maxSteps ≤ p.burst) :
      Looks p (false, { p with accumulator := Single.smaller p.accumulator p.interval })
  /-- A step is due and handed out. -/
  | handed (runs : p.running = true) (due : ¬ p.accumulator < p.interval)
      (room : p.burst < p.maxSteps) :
      Looks p (true, { p with accumulator := p.accumulator - p.interval, burst := p.burst + 1 })

theorem looks_nextDue (p : Pacer) : p.Looks p.nextDue := by
  cases hruns : p.running with
  | false =>
    rw [nextDue_of_not_running hruns]
    exact .waiting fun h => by rw [hruns] at h; cases h
  | true =>
    rw [nextDue]
    by_cases hdue : p.accumulator < p.interval
    · rw [if_pos (by simp [hdue])]
      exact .waiting fun _ => hdue
    · rw [if_neg (by simp [hruns, hdue])]
      split
      · next hfull => exact .dropped hruns hdue hfull
      · next hroom => exact .handed hruns hdue (not_le.mp hroom)

/-- A step is handed out exactly if the pacer runs, one interval is over, and more are allowed. -/
theorem nextDue_fst_iff (p : Pacer) : p.nextDue.1 = true ↔
    p.running = true ∧ ¬ p.accumulator < p.interval ∧ p.burst < p.maxSteps := by
  have hlooks := p.looks_nextDue
  generalize p.nextDue = found at hlooks ⊢
  cases hlooks with
  | waiting idle => exact iff_of_false Bool.false_ne_true fun h => h.2.1 (idle h.1)
  | dropped _ _ full => exact iff_of_false Bool.false_ne_true fun h => h.2.2.not_ge full
  | handed runs due room => exact iff_of_true rfl ⟨runs, due, room⟩

/-! ## What stays -/

/-- No operation changes the interval and the greatest number of steps. -/
theorem kept_perform (p : Pacer) (operation : Operation) :
    (p.perform operation).interval = p.interval ∧
      (p.perform operation).maxSteps = p.maxSteps := by
  cases operation with
  | start | cancel => exact ⟨rfl, rfl⟩
  | delayNext | advance =>
    simp only [perform, delayNext, advance]
    split <;> exact ⟨rfl, rfl⟩
  | nextDue =>
    have hlooks := p.looks_nextDue
    rw [perform]
    generalize p.nextDue = found at hlooks ⊢
    cases hlooks <;> exact ⟨rfl, rfl⟩

theorem kept_history (p : Pacer) (operations : List Operation) :
    (p.history operations).interval = p.interval ∧
      (p.history operations).maxSteps = p.maxSteps := by
  induction operations generalizing p with
  | nil => exact ⟨rfl, rfl⟩
  | cons operation operations ih =>
    obtain ⟨hinterval, hmost⟩ := ih (p.perform operation)
    obtain ⟨hinterval', hmost'⟩ := p.kept_perform operation
    exact ⟨hinterval.trans hinterval', hmost.trans hmost'⟩

/-- The interval is a number, whatever was asked for. -/
theorem isNaN_interval_new (interval : Float32) (maxSteps : UInt32) :
    (new interval maxSteps).interval.isNaN = false :=
  (Single.le_iff.mp (Single.right_le_larger interval (by decide))).1.2

/-! ## Silence -/

/-- Only starting makes a pacer run. -/
theorem running_perform {p : Pacer} {operation : Operation} (h : p.running = false)
    (hne : operation ≠ .start) : (p.perform operation).running = false := by
  cases operation with
  | start => exact absurd rfl hne
  | cancel => rfl
  | delayNext extra => exact (p.running_delayNext extra).trans h
  | advance dt => exact (p.running_advance dt).trans h
  | nextDue => exact p.running_nextDue.trans h

/-- **A pacer that does not run hands out nothing until it is started.** -/
theorem handedOut_of_not_running {p : Pacer} (h : p.running = false) {later : List Operation}
    (hstart : .start ∉ later) : p.handedOut later = 0 := by
  induction later generalizing p with
  | nil => rfl
  | cons operation later ih =>
    obtain ⟨hne, hlater⟩ := not_or.mp (List.mem_cons.not.mp hstart)
    have hnone : p.handsOut operation = false := by
      cases operation with
      | nextDue => rw [handsOut, nextDue_of_not_running h]
      | _ => rfl
    rw [handedOut, hnone, ih (running_perform h (Ne.symm hne)) hlater]
    rfl

/-! ## Bursts -/

/-- A step that is handed out takes one of those allowed. -/
theorem allowance_of_nextDue {p q : Pacer} (h : p.nextDue = (true, q)) :
    q.allowance + 1 = p.allowance := by
  have hlooks := p.looks_nextDue
  rw [h] at hlooks
  cases hlooks with
  | handed _ _ room =>
    simp only [allowance]
    omega

/-- **Every step that is handed out takes one of those allowed**, and nothing but starting, stopping
and feeding gives any back. -/
theorem allowance_perform (p : Pacer) {operation : Operation} (h : operation.Idles) :
    (p.handsOut operation).toNat + (p.perform operation).allowance ≤ p.allowance := by
  rcases h with rfl | ⟨extra, rfl⟩
  · have hlooks := p.looks_nextDue
    rw [handsOut, perform]
    generalize p.nextDue = found at hlooks ⊢
    cases hlooks <;> simp only [allowance, Bool.toNat_true, Bool.toNat_false] <;> omega
  · simp only [handsOut, perform, delayNext]
    split <;> exact (Nat.zero_add _).le

theorem handedOut_le_allowance {p : Pacer} {stretch : List Operation}
    (h : ∀ operation ∈ stretch, operation.Idles) : p.handedOut stretch ≤ p.allowance := by
  induction stretch generalizing p with
  | nil => exact Nat.zero_le _
  | cons operation stretch ih =>
    obtain ⟨hfirst, hrest⟩ := List.forall_mem_cons.mp h
    have hstep := p.allowance_perform hfirst
    have hlater := ih (p := p.perform operation) hrest
    rw [handedOut]
    omega

/-- **Between feedings no more steps are handed out than are allowed.** -/
theorem handedOut_le {p : Pacer} {stretch : List Operation}
    (h : ∀ operation ∈ stretch, operation.Idles) : p.handedOut stretch ≤ p.maxSteps :=
  (handedOut_le_allowance h).trans (Nat.sub_le _ _)

/-! ## What is left -/

/-- **When a pacer that runs has nothing due, one interval at most is left.** -/
theorem accumulator_le_interval {p q : Pacer} (hnumber : p.interval.isNaN = false)
    (hruns : p.running = true) (h : p.nextDue = (false, q)) : q.accumulator ≤ q.interval := by
  have hlooks := p.looks_nextDue
  rw [h] at hlooks
  cases hlooks with
  | waiting idle => exact Single.le_of_lt (idle hruns)
  | dropped => exact Single.smaller_le_right _ hnumber

/-! ## Delivering -/

/-- **The loop of a delivery, with `n` steps in it**: it goes on as long as a step is due. -/
inductive Delivers {σ : Type} (Step : Pacer × σ → Pacer × σ → Prop) :
    ℕ → Pacer × σ → Pacer × σ → Prop where
  | done {p q : Pacer} {s : σ} (idle : p.nextDue = (false, q)) : Delivers Step 0 (p, s) (q, s)
  | next {p q : Pacer} {s : σ} {n : ℕ} {d e : Pacer × σ} (due : p.nextDue = (true, q))
      (step : Step (q, s) d) (rest : Delivers Step n d e) : Delivers Step (n + 1) (p, s) e

section Delivering

variable {σ ε : Type} {step : Pacer → σ → Except ε (Pacer × σ)}

/-- **What is delivered up to a bound is the whole loop**, if the bound is not below what is
allowed, and if no step gives any of that back to a pacer that runs on. -/
theorem delivers_of_deliverUpTo
    (hstep : ∀ q s d, step q s = .ok d → d.1.running = false ∨ d.1.allowance ≤ q.allowance)
    {n : ℕ} {p : Pacer} {s : σ} {d : Pacer × σ} (hn : p.running = false ∨ p.allowance ≤ n)
    (h : deliverUpTo step n p s = .ok d) :
    ∃ k ≤ n, Delivers (fun a b => step a.1 a.2 = .ok b) k (p, s) d := by
  induction n generalizing p s with
  | zero =>
    obtain rfl := Except.ok.inj h
    refine ⟨0, le_rfl, .done ?_⟩
    -- at the bound nothing more is allowed, so nothing is due
    rcases hdue : p.nextDue with ⟨_ | _, q⟩
    · rfl
    · rcases hn with hstopped | hnone
      · rw [nextDue_of_not_running hstopped] at hdue
        cases hdue
      · exact absurd (allowance_of_nextDue hdue) (by omega)
  | succ n ih =>
    rw [deliverUpTo] at h
    rcases hdue : p.nextDue with ⟨_ | _, q⟩ <;> rw [hdue] at h
    · obtain rfl := Except.ok.inj h
      exact ⟨0, Nat.zero_le _, .done hdue⟩
    · cases hs : step q s with
      | error e =>
        simp only [hs] at h
        cases h
      | ok d' =>
        simp only [hs] at h
        have hallowed : d'.1.running = false ∨ d'.1.allowance ≤ n := by
          refine (hstep _ _ _ hs).imp_right fun hle => ?_
          have hspent := allowance_of_nextDue hdue
          have hruns := (running_of_nextDue hdue).1
          rcases hn with hstopped | hle'
          · rw [hstopped] at hruns
            cases hruns
          · omega
        obtain ⟨k, hk, hdelivers⟩ := ih hallowed h
        exact ⟨k + 1, by omega, .next hdue hs hdelivers⟩

/-- A delivery whose steps cannot fail is the same with and without faults. -/
theorem deliverUpTo_pure (f : Pacer → σ → Pacer × σ) (n : ℕ) (p : Pacer) (s : σ) :
    deliverUpTo (fun p s => (.ok (f p s) : Except ε (Pacer × σ))) n p s
      = .ok (Id.run (deliverUpTo (fun p s => pure (f p s)) n p s)) := by
  induction n generalizing p s with
  | zero => rfl
  | succ n ih =>
    rw [deliverUpTo, deliverUpTo]
    rcases p.nextDue with ⟨_ | _, q⟩
    · rfl
    · exact ih (f q s).1 (f q s).2

end Delivering

theorem Delivers.imp {σ : Type} {Step Step' : Pacer × σ → Pacer × σ → Prop} {n : ℕ}
    {d e : Pacer × σ} (himp : ∀ a b, Step a b → Step' a b) (h : Delivers Step n d e) :
    Delivers Step' n d e := by
  induction h with
  | done idle => exact .done idle
  | next due step _ ih => exact .next due (himp _ _ step) ih

/-- A step that is only counted. -/
def Counts (d e : Pacer × ℕ) : Prop := e = (d.1, d.2 + 1)

theorem Delivers.count_eq {n : ℕ} {d e : Pacer × ℕ} (h : Delivers Counts n d e) :
    e.2 = d.2 + n := by
  induction h with
  | done => rfl
  | next _ step _ ih =>
    rw [ih, step]
    omega

/-- **Draining counts the steps of the loop**, and there are no more of them than are allowed. -/
theorem delivers_drain (p : Pacer) (dt : Float32) : (p.drain dt).1 ≤ p.maxSteps ∧
    Delivers Counts (p.drain dt).1 (p.advance dt, 0) ((p.drain dt).2, (p.drain dt).1) := by
  obtain ⟨n, hn, hloop⟩ := delivers_of_deliverUpTo
    (fun _ _ _ h => .inr (by obtain rfl := Except.ok.inj h; exact le_rfl)) (.inr le_rfl)
    (deliverUpTo_pure (ε := Empty) (fun p count => (p, count + 1)) (p.advance dt).allowance
      (p.advance dt) 0)
  have hcounts : Delivers Counts n (p.advance dt, 0) ((p.drain dt).2, (p.drain dt).1) :=
    hloop.imp fun _ _ h => (Except.ok.inj h).symm
  have hcount : (p.drain dt).1 = 0 + n := hcounts.count_eq
  have hmost := (p.kept_perform (.advance dt)).2
  rw [hcount, Nat.zero_add] at hcounts ⊢
  exact ⟨hn.trans ((Nat.sub_le _ _).trans hmost.le), hcounts⟩

end BlockCoding.Pacer
