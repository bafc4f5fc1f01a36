import BlockCoding.Proofs.Fault
import BlockCoding.Stage.Tick
import Mathlib.Data.List.Basic

/-!
# Proofs/Stage/Frames — frame after frame

A stage is ticked again and again: `Tick.after` is where it stands after `n` ticks, `Tick.nth` the
tick that comes then, and `Tick.inRow` lists the first `n` ticks.  What a tick keeps is kept by all
of them (`after_induction`).  None of these looks at verdicts: a stage may be ticked on after its
run has ended.  Ticks whose counters have to fit into their words come to the same, or to a fault
with the first counter that does not (`after?_eq`).

Some numbers change in the same way in every frame, whatever else happens, so what is true of them
for a number of frames can be found out by computing them once (`holds_of_holdsFor`).
-/

namespace BlockCoding.Tick

variable {τ σ : Type} (tick : τ → σ → Tick τ σ)

/-- **The stage and the source after `n` ticks.** -/
def after : Nat → τ → σ → τ × σ
  | 0, stage, source => (stage, source)
  | n + 1, stage, source => after n (tick stage source).state (tick stage source).source

/-- The tick that comes after `n` ticks. -/
def nth (n : Nat) (stage : τ) (source : σ) : Tick τ σ :=
  tick (after tick n stage source).1 (after tick n stage source).2

/-- **The first `n` ticks**, in order. -/
def inRow : Nat → τ → σ → List (Tick τ σ)
  | 0, _, _ => []
  | n + 1, stage, source =>
    tick stage source :: inRow n (tick stage source).state (tick stage source).source

/-- All that some ticks tell, in order. -/
def told (ticks : List (Tick τ σ)) : List Event := ticks.flatMap Tick.events

/-- The stage and the source after `n` ticks that may be faults. -/
def after? (tick? : τ → σ → Except Fault (Tick τ σ)) : Nat → τ → σ → Except Fault (τ × σ)
  | 0, stage, source => pure (stage, source)
  | n + 1, stage, source => do
    let t ← tick? stage source
    after? tick? n t.state t.source

variable (stage : τ) (source : σ)

/-- The last tick comes after the others. -/
theorem after_succ (n : Nat) : after tick (n + 1) stage source
    = ((nth tick n stage source).state, (nth tick n stage source).source) := by
  induction n generalizing stage source with
  | zero => rfl
  | succ n ih => exact ih (tick stage source).state (tick stage source).source

theorem inRow_succ (n : Nat) :
    inRow tick (n + 1) stage source = inRow tick n stage source ++ [nth tick n stage source] := by
  induction n generalizing stage source with
  | zero => rfl
  | succ n ih => exact congrArg (List.cons _) (ih (tick stage source).state _)

theorem length_inRow (n : Nat) : (inRow tick n stage source).length = n := by
  induction n generalizing stage source with
  | zero => rfl
  | succ n ih => exact congrArg (· + 1) (ih (tick stage source).state _)

theorem told_inRow_succ (n : Nat) : told (inRow tick (n + 1) stage source)
    = told (inRow tick n stage source) ++ (nth tick n stage source).events := by
  rw [inRow_succ, told, List.flatMap_append, List.flatMap_singleton, told]

/-- The ticks in a row are those that come after fewer ticks. -/
theorem mem_inRow_iff {n : Nat} {t : Tick τ σ} :
    t ∈ inRow tick n stage source ↔ ∃ k < n, t = nth tick k stage source := by
  induction n with
  | zero => simp [inRow]
  | succ n ih =>
    rw [inRow_succ, List.mem_append, ih, List.mem_singleton]
    constructor
    · rintro (⟨k, hk, rfl⟩ | rfl)
      · exact ⟨k, Nat.lt_succ_of_lt hk, rfl⟩
      · exact ⟨n, Nat.lt_succ_self n, rfl⟩
    · rintro ⟨k, hk, rfl⟩
      rcases Nat.lt_succ_iff_lt_or_eq.mp hk with hk | rfl
      · exact .inl ⟨k, hk, rfl⟩
      · exact .inr rfl

/-- **Ticks whose counters have to fit come to the same**, if they all fit. -/
theorem after?_eq (fits : τ → Bool) (n : Nat) :
    after? (fun stage source => fitting (fun t => fits t.state) (tick stage source)) n stage source
      = if ∀ k < n, fits (nth tick k stage source).state then .ok (after tick n stage source)
        else .error .overflow := by
  induction n generalizing stage source with
  | zero => rfl
  | succ n ih =>
    -- the first tick is the one after none, and each later one comes after one tick less from there
    have hsplit : (∀ k < n + 1, fits (nth tick k stage source).state = true) ↔
        fits (tick stage source).state = true ∧
          ∀ k < n, fits (nth tick k (tick stage source).state (tick stage source).source).state
            = true :=
      Nat.forall_lt_succ_left
    rw [after?]
    cases hfirst : fits (tick stage source).state with
    | false =>
      have hfault : fitting (fun t => fits t.state) (tick stage source) = .error .overflow :=
        fitting_of_not hfirst
      rw [hfault, if_neg fun hall => by simpa [hfirst] using hsplit.mp hall]
      rfl
    | true =>
      have hok : fitting (fun t => fits t.state) (tick stage source) = .ok (tick stage source) :=
        fitting_eq_ok_iff.mpr ⟨rfl, hfirst⟩
      rw [hok, ok_bind, ih]
      simp only [hsplit, hfirst, true_and]
      rfl

variable {tick stage source}

/-- **What every tick keeps is kept by any number of them.** -/
theorem after_induction {Kept : τ → Prop}
    (hkept : ∀ stage source, Kept stage → Kept (tick stage source).state) (h : Kept stage)
    (n : Nat) : Kept (after tick n stage source).1 := by
  induction n with
  | zero => exact h
  | succ n ih =>
    rw [after_succ]
    exact hkept _ _ ih

end BlockCoding.Tick

namespace BlockCoding

/-! ## What changes in the same way in every frame -/

variable {α : Type} {change : α → α} {holds : Nat → α → Bool}

/-- Whether something holds in each of the `k` frames that come after the first `n`. -/
def holdsFor (change : α → α) (holds : Nat → α → Bool) : Nat → Nat → α → Bool
  | 0, _, _ => true
  | k + 1, n, x => holds (n + 1) (change x) && holdsFor change holds k (n + 1) (change x)

/-- **What has been found to hold in all frames holds in each of them.** -/
theorem holds_of_holdsFor {x : Nat → α} (hx : ∀ n, x (n + 1) = change (x n)) {k n : Nat}
    (h : holdsFor change holds k n (x n) = true) {m : Nat} (hnm : n < m) (hm : m ≤ n + k) :
    holds m (x m) = true := by
  induction k generalizing n with
  | zero => omega
  | succ k ih =>
    rw [holdsFor, Bool.and_eq_true, ← hx] at h
    rcases Nat.lt_or_ge (n + 1) m with hlt | hle
    · exact ih h.2 hlt (by omega)
    · obtain rfl : m = n + 1 := by omega
      exact h.1

end BlockCoding
