import BlockCoding.Proofs.Single.Order
import BlockCoding.Stage.Spread

/-!
# Proofs/Stage/Selection — which sample is placed, and how many are drawn

A point is placed by looking at one sample after the other.  `Leads` is what holds between two
samples: which of those drawn so far is the best one.  It is the last one drawn as soon as it is far
enough (`Leads.eq_last`), so the drawing stops at the first sample that is, and otherwise the
earliest of the best ones is left (`improve_selects`).  `placeOne_selects` adds what is compared:
the clearance of a sample is the least of its distances that are numbers (`nearest_clearance`).
-/

namespace BlockCoding.Spread

variable {α σ : Type}

/-! ## Clearance -/

/-- **The least of the distances to the points taken**: those that are no numbers do not count, and
it is infinite if none is left. -/
structure Nearest (distance : α → α → Float32) (taken : List α) (point : α) (c : Float32) :
    Prop where
  isNaN_eq : c.isNaN = false
  le : ∀ other ∈ taken, (distance other point).isNaN = false → c ≤ distance other point
  attained : c = Single.infinity ∨ ∃ other ∈ taken, distance other point = c

/-- The same, with a bound on the points that were passed before. -/
private theorem nearest_foldl (distance : α → α → Float32) (point : α) (taken : List α)
    {bound : Float32} (hbound : bound.isNaN = false) :
    let c := taken.foldl (fun nearest other => Single.smaller nearest (distance other point)) bound
    (c.isNaN = false ∧ c ≤ bound) ∧
      (∀ other ∈ taken, (distance other point).isNaN = false → c ≤ distance other point) ∧
      (c = bound ∨ ∃ other ∈ taken, distance other point = c) := by
  induction taken generalizing bound with
  | nil => exact ⟨⟨hbound, Single.le_refl hbound⟩, by simp, .inl rfl⟩
  | cons first rest ih =>
    obtain ⟨⟨hnumber, hle⟩, hall, hattained⟩ :=
      ih (Single.isNaN_smaller hbound (distance first point))
    refine ⟨⟨hnumber, Single.le_trans hle (Single.smaller_le_left hbound _)⟩, ?_, ?_⟩
    · intro other hother hdistance
      rcases List.mem_cons.mp hother with rfl | hother
      · exact Single.le_trans hle (Single.smaller_le_right bound hdistance)
      · exact hall other hother hdistance
    · rcases hattained with heq | ⟨other, hother, heq⟩
      · rw [List.foldl_cons, heq]
        rcases Single.smaller_eq bound (distance first point) with h | h
        · exact .inl h
        · exact .inr ⟨first, List.mem_cons_self, h.symm⟩
      · exact .inr ⟨other, List.mem_cons_of_mem _ hother, heq⟩

theorem nearest_clearance (distance : α → α → Float32) (taken : List α) (point : α) :
    Nearest distance taken point (clearance distance taken point) := by
  obtain ⟨⟨hnumber, -⟩, hall, hattained⟩ :=
    nearest_foldl distance point taken Single.isNaN_infinity
  exact ⟨hnumber, hall, hattained⟩

/-! ## Samples in the order they are drawn -/

section Draws

variable (sample : σ → α × σ) (source : σ)

/-- What is left of a source after `n` draws. -/
def sourceAfter : Nat → σ
  | 0 => source
  | n + 1 => (sample (sourceAfter n)).2

/-- The sample drawn after `n` others. -/
def draw (n : Nat) : α := (sample (sourceAfter sample source n)).1

end Draws

/-- **Of the first `n` samples the one drawn after `best` others has the greatest clearance**, and
it is the earliest that has. -/
structure Leads (clear : α → Float32) (samples : Nat → α) (n best : Nat) : Prop where
  lt : best < n
  greatest : ∀ i < n, clear (samples i) ≤ clear (samples best)
  earliest : ∀ i < best, clear (samples i) < clear (samples best)

namespace Leads

variable {clear : α → Float32} {samples : Nat → α} {n best : Nat} {minDistance : Float32}

theorem first (hclear : ∀ point, (clear point).isNaN = false) : Leads clear samples 1 0 where
  lt := Nat.one_pos
  greatest i hi := by
    obtain rfl : i = 0 := by omega
    exact Single.le_refl (hclear _)
  earliest i hi := absurd hi (Nat.not_lt_zero i)

/-- One more sample leads only if it is better than the best one before it. -/
theorem next (h : Leads clear samples n best) (hclear : ∀ point, (clear point).isNaN = false) :
    Leads clear samples (n + 1)
      (if clear (samples best) < clear (samples n) then n else best) := by
  by_cases hbetter : clear (samples best) < clear (samples n)
  · rw [if_pos hbetter]
    have hbelow (i : Nat) (hi : i < n) : clear (samples i) < clear (samples n) :=
      Single.lt_of_le_of_lt (h.greatest i hi) hbetter
    refine ⟨Nat.lt_succ_self n, fun i hi => ?_, hbelow⟩
    rcases Nat.lt_succ_iff_lt_or_eq.mp hi with hi | rfl
    · exact Single.le_of_lt (hbelow i hi)
    · exact Single.le_refl (hclear _)
  · rw [if_neg hbetter]
    refine ⟨Nat.lt_succ_of_lt h.lt, fun i hi => ?_, h.earliest⟩
    rcases Nat.lt_succ_iff_lt_or_eq.mp hi with hi | rfl
    · exact h.greatest i hi
    · exact Single.le_of_not_lt (hclear _) (hclear _) hbetter

/-- **The leading sample is far enough only if it is the last one drawn**, as long as none before
the last one is. -/
theorem eq_last (h : Leads clear samples n best)
    (hnear : ∀ i, i + 1 < n → ¬ minDistance ≤ clear (samples i))
    (hfar : minDistance ≤ clear (samples best)) : best + 1 = n := by
  by_contra hne
  have := h.lt
  exact hnear best (by omega) hfar

/-- If the leading sample is too near, all are. -/
theorem not_far (h : Leads clear samples n best) (hnear : ¬ minDistance ≤ clear (samples best))
    (i : Nat) (hi : i < n) : ¬ minDistance ≤ clear (samples i) := fun hfar =>
  hnear (Single.le_trans hfar (h.greatest i hi))

end Leads

/-! ## The selection -/

/-- **What drawing up to `n` samples comes to**: a sample, and the source after the draws.  Either
the drawing stops at the first sample that is far enough, or all are too near, and the earliest of
the best ones is left. -/
inductive Selects (clear : α → Float32) (minDistance : Float32) (sample : σ → α × σ) (source : σ)
    (n : Nat) : Bool → α → σ → Prop where
  | far {k : Nat} (inTime : k < n)
      (before : ∀ i < k, ¬ minDistance ≤ clear (draw sample source i))
      (here : minDistance ≤ clear (draw sample source k)) :
      Selects clear minDistance sample source n true (draw sample source k)
        (sourceAfter sample source (k + 1))
  | near {best : Nat} (all : ∀ i < n, ¬ minDistance ≤ clear (draw sample source i))
      (leads : Leads clear (draw sample source) n best) :
      Selects clear minDistance sample source n false (draw sample source best)
        (sourceAfter sample source n)

section Selection

variable {clear : α → Float32} {minDistance : Float32} {sample : σ → α × σ} {source : σ}
  {n drawn best : Nat}

/-- A leading sample that is far enough ends the selection. -/
theorem Leads.selects (h : Leads clear (draw sample source) drawn best) (hn : drawn ≤ n)
    (hnear : ∀ i, i + 1 < drawn → ¬ minDistance ≤ clear (draw sample source i))
    (hfar : minDistance ≤ clear (draw sample source best)) :
    Selects clear minDistance sample source n true (draw sample source best)
      (sourceAfter sample source drawn) := by
  obtain rfl := h.eq_last hnear hfar
  exact .far hn (fun i hi => hnear i (Nat.succ_lt_succ hi)) hfar

/-- **Looking at further samples goes on with a selection** at any number of samples drawn already;
the induction is on the number of further ones. -/
theorem improve_selects (minDistance : Float32) (sample : σ → α × σ) (source : σ)
    (hclear : ∀ point, (clear point).isNaN = false) {further : Nat}
    (hleads : Leads clear (draw sample source) drawn best) (hn : drawn + further = n)
    (hnear : ∀ i, i + 1 < drawn → ¬ minDistance ≤ clear (draw sample source i)) :
    let picked := improve clear minDistance sample further (draw sample source best)
      (sourceAfter sample source drawn)
    Selects clear minDistance sample source n (decide (minDistance ≤ clear picked.1)) picked.1
      picked.2 := by
  induction further generalizing drawn best with
  | zero =>
    obtain rfl : drawn = n := hn
    dsimp only [improve]
    by_cases hfar : minDistance ≤ clear (draw sample source best)
    · rw [decide_eq_true hfar]
      exact hleads.selects (Nat.le_refl _) hnear hfar
    · rw [decide_eq_false hfar]
      exact .near (hleads.not_far hfar) hleads
  | succ further ih =>
    rw [improve]
    by_cases hfar : minDistance ≤ clear (draw sample source best)
    · rw [if_pos hfar]
      dsimp only
      rw [decide_eq_true hfar]
      exact hleads.selects (by omega) hnear hfar
    · rw [if_neg hfar]
      have := ih (hleads.next hclear) (by omega) fun i hi =>
        hleads.not_far hfar i (Nat.lt_of_succ_lt_succ hi)
      rwa [apply_ite (draw sample source)] at this

/-- A point is placed by drawing one sample and looking at as many further ones as there are
attempts left. -/
theorem placeOne_eq (distance : α → α → Float32) (spacing : Spacing) (sample : σ → α × σ)
    (taken : List α) (source : σ) :
    let picked := improve (clearance distance taken) spacing.minDistance sample
      (spacing.attempts.toNat - 1) (draw sample source 0) (sourceAfter sample source 1)
    placeOne distance spacing sample taken source =
      (⟨picked.1, decide (spacing.minDistance ≤ clearance distance taken picked.1)⟩,
        taken ++ [picked.1], picked.2) := rfl

/-- What holds of every sample holds of the best one. -/
theorem improve_of_forall (P : α → Prop) (hsample : ∀ source, P (sample source).1) {best : α}
    (hbest : P best) (further : Nat) (source : σ) :
    P (improve clear minDistance sample further best source).1 := by
  induction further generalizing best source with
  | zero => exact hbest
  | succ further ih =>
    rw [improve]
    split
    · exact hbest
    · refine ih ?_ _
      split
      · exact hsample source
      · exact hbest

/-- What holds of every sample holds of the point that is placed. -/
theorem placeOne_of_forall (P : α → Prop) (hsample : ∀ source, P (sample source).1)
    (distance : α → α → Float32) (spacing : Spacing) (taken : List α) (source : σ) :
    P (placeOne distance spacing sample taken source).1.point := by
  rw [placeOne_eq]
  exact improve_of_forall P hsample (hsample source) _ _

end Selection

/-- **How a point is placed.**  With at least one attempt, samples are drawn up to the first one
whose clearance is the required distance or more, and no further; if there is none among as many as
there are attempts, the earliest of those with the greatest clearance is placed all the same, and
marked.  What is placed is taken, behind what was taken before. -/
theorem placeOne_selects (distance : α → α → Float32) (spacing : Spacing) (sample : σ → α × σ)
    (taken : List α) (source : σ) :
    (∀ point, Nearest distance taken point (clearance distance taken point)) ∧
      ∃ spaced point rest,
        placeOne distance spacing sample taken source
          = (⟨point, spaced⟩, taken ++ [point], rest) ∧
        Selects (clearance distance taken) spacing.minDistance sample source
          (max 1 spacing.attempts.toNat) spaced point rest := by
  have hnearest := nearest_clearance distance taken
  have hclear (point : α) := (hnearest point).isNaN_eq
  have hattempts : 1 + (spacing.attempts.toNat - 1) = max 1 spacing.attempts.toNat := by omega
  have hselects := improve_selects spacing.minDistance sample source hclear (.first hclear)
    hattempts fun i hi => absurd hi (by omega)
  exact ⟨hnearest, _, _, _, placeOne_eq distance spacing sample taken source, hselects⟩

end BlockCoding.Spread
