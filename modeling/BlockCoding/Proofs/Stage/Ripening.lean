import BlockCoding.Proofs.Stage.Harvest

/-!
# Proofs/Stage/Ripening — few fruits at a time, and one in the basket at most

A fruit falls by the same amount in every tick, so the number of its falls tells how high it is
(`told_height`).  A new one comes with every sixtieth tick, so the number of ticks tells which ages
there can be (`mem_ages_iff`), and what a tick keeps of the fruits is some of these, in order
(`Ripened`, `Ripened.tick`).  The ages lie sixty apart: three of them fit between the top and the
bottom of the stage, and one of them is as low as the basket (`few_fruits`).
-/

namespace BlockCoding.Orchard

/-! ## Heights -/

/-- **The height of a fruit that has fallen `n` times.** -/
def height : ℕ → Float32
  | 0 => -10
  | n + 1 => height n + Fruit.fallSpeed

/-- The number of falls tells whether a fruit is low enough to be caught, and whether it is still
on the stage. -/
def Told (n : ℕ) (y : Float32) : Prop :=
  (80 < y ∧ y < 95 ↔ 113 ≤ n ∧ n ≤ 131) ∧ (y < 110 ↔ n ≤ 149)

instance (n : ℕ) (y : Float32) : Decidable (Told n y) :=
  inferInstanceAs (Decidable (_ ∧ _))

/-- **The number of falls tells where a fruit is**, until it leaves the stage. -/
theorem told_height {n : ℕ} (hpos : 0 < n) (hn : n ≤ 150) : Told n (height n) := by
  have htells : holdsFor (· + Fruit.fallSpeed) (fun n y => decide (Told n y)) 150 0 (-10)
      = true := by
    decide +kernel
  exact of_decide_eq_true (holds_of_holdsFor (x := height) (fun _ => rfl) htells hpos (by omega))

/-! ## Ages -/

/-- **The ages of the fruits after `n` ticks if none is caught**, in falls: a fruit appears with
every sixtieth tick. -/
def ages : ℕ → List ℕ
  | 0 => []
  | n + 1 => ((ages n).map (· + 1)).filter (· ≤ 149) ++ if (n + 1) % 60 = 0 then [1] else []

/-- **A fruit has some age exactly if one appeared so many ticks ago**, and has not left since. -/
theorem mem_ages_iff {n j : ℕ} :
    j ∈ ages n ↔ 1 ≤ j ∧ j ≤ 149 ∧ j ≤ n ∧ (n + 1 - j) % 60 = 0 := by
  induction n generalizing j with
  | zero => simp [ages]; omega
  | succ n ih =>
    have hnew : j ∈ (if (n + 1) % 60 = 0 then [1] else []) ↔ j = 1 ∧ (n + 1) % 60 = 0 := by
      split
      · next hborn => exact List.mem_singleton.trans (and_iff_left hborn).symm
      · next hborn => exact iff_of_false List.not_mem_nil fun h => hborn h.2
    have hold : j ∈ ((ages n).map (· + 1)).filter (· ≤ 149) ↔ 1 < j ∧ j ≤ 149 ∧ j - 1 ∈ ages n := by
      simp only [List.mem_filter, List.mem_map, decide_eq_true_iff]
      constructor
      · rintro ⟨⟨k, hk, rfl⟩, hle⟩
        have := (ih.mp hk).1
        exact ⟨by omega, hle, hk⟩
      · rintro ⟨hlt, hle, hk⟩
        exact ⟨⟨j - 1, hk, by omega⟩, hle⟩
    rw [ages, List.mem_append, hold, hnew, ih]
    omega

/-- Older fruits come first. -/
theorem pairwise_ages (n : ℕ) : (ages n).Pairwise fun j k => k < j := by
  induction n with
  | zero => exact .nil
  | succ n ih =>
    rw [ages, List.pairwise_append]
    refine ⟨(List.pairwise_map.mpr (ih.imp Nat.succ_lt_succ)).filter _, ?_, ?_⟩
    · split
      · exact List.pairwise_singleton ..
      · exact .nil
    · intro j hj k hk
      obtain rfl : k = 1 := by
        split at hk
        · exact List.mem_singleton.mp hk
        · cases hk
      obtain ⟨i, hi, rfl⟩ := List.mem_map.mp (List.mem_of_mem_filter hj)
      have := (mem_ages_iff.mp hi).1
      omega

/-- **Two fruits are sixty falls apart.** -/
theorem add_sixty_le_of_mem_ages {n j k : ℕ} (hj : j ∈ ages n) (hk : k ∈ ages n) (hkj : k < j) :
    k + 60 ≤ j := by
  have hj := mem_ages_iff.mp hj
  have hk := mem_ages_iff.mp hk
  omega

/-- **There are three fruits at most**: a fourth one would have left the stage. -/
theorem length_ages_le (n : ℕ) : (ages n).length ≤ 3 := by
  have hpairs : (ages n).Pairwise fun j k => k + 60 ≤ j :=
    (pairwise_ages n).imp_of_mem fun hj hk hkj => add_sixty_le_of_mem_ages hj hk hkj
  have hmem (j : ℕ) (hj : j ∈ ages n) : 1 ≤ j ∧ j ≤ 149 :=
    ⟨(mem_ages_iff.mp hj).1, (mem_ages_iff.mp hj).2.1⟩
  generalize ages n = js at hpairs hmem
  rcases js with _ | ⟨a, _ | ⟨b, _ | ⟨c, _ | ⟨d, later⟩⟩⟩⟩
  · exact Nat.zero_le _
  · exact Nat.le_add_left 1 2
  · exact Nat.le_add_left 2 1
  · exact Nat.le_refl _
  · simp only [List.pairwise_cons, List.mem_cons, forall_eq_or_imp] at hpairs hmem
    omega

/-! ## One tick -/

variable {playerX : Float32} {fruits : List Fruit} {o : Orchard} {n : ℕ}

/-- The heights of fruits. -/
def heights (fruits : List Fruit) : List Float32 := fruits.map fun f => f.pos.y

/-- One more fall takes off the stage just those fruits that have fallen for too long. -/
theorem filter_heights (n : ℕ) :
    (((ages n).map height).map (· + Fruit.fallSpeed)).filter (· < 110)
      = (((ages n).map (· + 1)).filter (· ≤ 149)).map height := by
  have hfalls : ((ages n).map height).map (· + Fruit.fallSpeed)
      = ((ages n).map (· + 1)).map height := by
    rw [List.map_map, List.map_map]
    rfl
  rw [hfalls, List.filter_map]
  refine congrArg (List.map height) (List.filter_congr fun j hj => ?_)
  obtain ⟨i, hi, rfl⟩ := List.mem_map.mp hj
  have hage := mem_ages_iff.mp hi
  exact decide_eq_decide.mpr (told_height (n := i + 1) (by omega) (by omega)).2

theorem heights_map_fall (fruits : List Fruit) :
    heights (fruits.map Fruit.fall) = (heights fruits).map (· + Fruit.fallSpeed) := by
  rw [heights, heights, List.map_map, List.map_map]
  rfl

theorem onStage_eq_filter (playerX : Float32) (fruits : List Fruit) : onStage playerX fruits
    = ((fruits.map Fruit.fall).filter fun f => !f.isCaught playerX).filter
        fun f => f.pos.y < 110 := by
  rw [onStage, List.filter_filter]

/-- **What stays has fallen, and not off the stage.** -/
theorem heights_onStage_sublist (playerX : Float32) (fruits : List Fruit) :
    (heights (onStage playerX fruits)).Sublist
      (((heights fruits).map (· + Fruit.fallSpeed)).filter (· < 110)) := by
  rw [← heights_map_fall, heights, heights, List.filter_map, onStage_eq_filter]
  exact (List.filter_sublist.filter _).map _

variable {σ : Type} [RandomSource σ]

/-- The fruits after a tick are what stays of those before and of a new one, if one is due. -/
theorem exists_fruits_tick (o : Orchard) (source : σ) : ∃ new,
    heights new = (if (o.frame + 1) % spawnFrames = 0 then [-10] else []) ∧
      (o.tick source).state.fruits
        = onStage (o.tick source).state.playerX (o.fruits ++ new) := by
  obtain ⟨new, rest, hnew, hids, heq⟩ := o.exists_new source
  refine ⟨new, ?_, ?_⟩
  · have hheights : heights new = o.fresh.map fun _ => -10 := by
      rw [← hids, List.map_map]
      exact List.map_congr_left hnew
    rw [hheights, fresh]
    split <;> rfl
  · rw [tick]
    dsimp only
    rw [heq]
    simp only [driftBasket, settle_eq]

/-! ## All ticks -/

/-- **What the number of ticks tells of the fruits**: they are, in their order, some of those that
there are if none is caught. -/
structure Ripened (n : ℕ) (o : Orchard) : Prop where
  frame_eq : o.frame = n
  sublist : (heights o.fruits).Sublist ((ages n).map height)

theorem ripened_start (behaviors : OrchardBehaviors) : Ripened 0 (start behaviors) :=
  ⟨rfl, List.Sublist.refl []⟩

/-- The heights after a tick, if nothing is caught in it. -/
theorem filter_heights_append {new : List Fruit}
    (hnew : heights new = if (n + 1) % spawnFrames = 0 then [-10] else []) :
    (((ages n).map height ++ heights new).map (· + Fruit.fallSpeed)).filter (· < 110)
      = (ages (n + 1)).map height := by
  rw [List.map_append, List.filter_append, filter_heights, ages, List.map_append, hnew, spawnFrames]
  refine congrArg _ ?_
  split
  · decide +kernel
  · rfl

/-- **A tick lets the fruits ripen.** -/
theorem Ripened.tick (h : Ripened n o) (source : σ) : Ripened (n + 1) (o.tick source).state := by
  obtain ⟨new, hnew, hfruits⟩ := o.exists_fruits_tick source
  rw [h.frame_eq] at hnew
  refine ⟨?_, ?_⟩
  · rw [(o.gathers_tick source).frame_eq, h.frame_eq]
  · rw [hfruits, ← filter_heights_append hnew]
    refine (heights_onStage_sublist _ _).trans (((List.Sublist.map _ ?_)).filter _)
    rw [heights, List.map_append]
    exact h.sublist.append_right _

theorem ripened_after (behaviors : OrchardBehaviors) (source : σ) (n : ℕ) :
    Ripened n (Tick.after Orchard.tick n (start behaviors) source).1 := by
  induction n with
  | zero => exact ripened_start behaviors
  | succ n ih =>
    rw [Tick.after_succ]
    exact ih.tick _

/-! ## One in the basket at most -/

/-- Two fruits in a row have ages in a row. -/
theorem Ripened.pairwise (h : Ripened n o) : o.fruits.Pairwise fun f g => ∃ j k, j ∈ ages n ∧
    k ∈ ages n ∧ k < j ∧ f.pos.y = height j ∧ g.pos.y = height k := by
  have hages : ((ages n).map height).Pairwise fun y z => ∃ j k, j ∈ ages n ∧ k ∈ ages n ∧ k < j ∧
      y = height j ∧ z = height k := by
    rw [List.pairwise_map]
    exact (pairwise_ages n).imp_of_mem fun hj hk hlt => ⟨_, _, hj, hk, hlt, rfl, rfl⟩
  exact List.pairwise_map.mp (hages.sublist h.sublist)

/-- A fruit is caught at some ages only. -/
theorem age_of_isCaught_fall {f : Fruit} {j : ℕ} (hj : j ∈ ages n) (hy : f.pos.y = height j)
    (hcaught : f.fall.isCaught playerX = true) : 112 ≤ j ∧ j ≤ 130 := by
  have hage := mem_ages_iff.mp hj
  have htold := (told_height (n := j + 1) (by omega) (by omega)).1
  simp only [Fruit.isCaught, Fruit.fall, hy, Bool.and_eq_true, decide_eq_true_iff] at hcaught
  have := htold.mp hcaught.1
  omega

/-- **One fruit at most is in the basket**: two of them are too far apart. -/
theorem Ripened.length_inBasket_le (h : Ripened n o) :
    (inBasket playerX o.fruits).length ≤ 1 := by
  rw [inBasket, List.filter_map, List.length_map]
  have hpairs := h.pairwise.sublist (List.filter_sublist
    (p := (fun f => f.isCaught playerX) ∘ Fruit.fall))
  have hmem (f : Fruit) (hf : f ∈ o.fruits.filter ((fun f => f.isCaught playerX) ∘ Fruit.fall)) :
      f.fall.isCaught playerX = true := by
    simpa using (List.mem_filter.mp hf).2
  generalize o.fruits.filter ((fun f => f.isCaught playerX) ∘ Fruit.fall) = caught at *
  rcases caught with _ | ⟨f, _ | ⟨g, later⟩⟩
  · exact Nat.zero_le _
  · exact Nat.le_refl _
  · obtain ⟨j, k, hj, hk, hkj, hfy, hgy⟩ :=
      (List.pairwise_cons.mp hpairs).1 g List.mem_cons_self
    have hjage := age_of_isCaught_fall hj hfy (hmem f List.mem_cons_self)
    have hkage := age_of_isCaught_fall hk hgy (hmem g (List.mem_cons_of_mem _ List.mem_cons_self))
    have hapart := add_sixty_le_of_mem_ages hj hk hkj
    omega

theorem Ripened.length_fruits_le (h : Ripened n o) : o.fruits.length ≤ 3 := by
  have hle := h.sublist.length_le
  rw [heights, List.length_map, List.length_map] at hle
  exact Nat.le_trans hle (length_ages_le n)

/-- A tick that catches one fruit at most wins, if none has won before, with a score of ten. -/
theorem Gathers.score_eq_of_win {σ : Type} {t : Tick Orchard σ} (ht : o.Gathers t)
    (hlow : ¬ scoreToWin ≤ o.score) (hone : (inBasket t.state.playerX o.fruits).length ≤ 1)
    (hwin : t.verdict = some .win) : t.state.score = 10 := by
  have hten : scoreToWin ≤ t.state.score := by
    rw [ht.verdict_eq] at hwin
    by_contra hten
    rw [if_neg hten] at hwin
    cases hwin
  have hscore := ht.score_eq
  rw [scoreToWin] at hlow hten
  split at hscore <;> omega

/-- As long as there has been no verdict, the score is too low for one. -/
theorem not_won_after (behaviors : OrchardBehaviors) (source : σ) {n : ℕ}
    (h : ∀ m < n, (Tick.nth Orchard.tick m (start behaviors) source).verdict = none) :
    ¬ scoreToWin ≤ (Tick.after Orchard.tick n (start behaviors) source).1.score := by
  cases n with
  | zero => exact (by decide : ¬ scoreToWin ≤ 0)
  | succ n =>
    have hverdict : (Tick.nth Orchard.tick n (start behaviors) source).verdict
        = if scoreToWin ≤ (Tick.nth Orchard.tick n (start behaviors) source).state.score
          then some .win else none := (gathers_tick _ _).verdict_eq
    rw [Tick.after_succ]
    intro hten
    rw [if_pos hten, h n (Nat.lt_succ_self n)] at hverdict
    cases hverdict

/-- **There are few fruits at a time, and one in the basket at most.**  After any number of ticks,
which go well for as long as there are ids for new fruits, there are three fruits at most; no tick
catches more than one, or tells of more; and so an orchard that wins for the first time has a score
of ten. -/
theorem few_fruits (behaviors : OrchardBehaviors) (source : σ) (n : ℕ) :
    let o := (Tick.after Orchard.tick n (start behaviors) source).1
    let t (m : ℕ) := Tick.nth Orchard.tick m (start behaviors) source
    Tick.after? Orchard.tick? n (start behaviors) source
        = (if n < 60 * (2 ^ 32 - 1) then .ok (Tick.after Orchard.tick n (start behaviors) source)
          else .error .overflow) ∧
      o.fruits.length ≤ 3 ∧ (inBasket (t n).state.playerX o.fruits).length ≤ 1 ∧
      (t n).events.length ≤ 1 ∧
      ((∀ m < n, (t m).verdict = none) → (t n).verdict = some .win →
        (t n).state.score = 10) := by
  intro o t
  have h : Ripened n o := ripened_after behaviors source n
  have ht : o.Gathers (t n) := o.gathers_tick _
  have hone : (inBasket (t n).state.playerX o.fruits).length ≤ 1 := h.length_inBasket_le
  refine ⟨after?_start behaviors source n, h.length_fruits_le, hone, ?_, fun hnone hwin =>
    ht.score_eq_of_win (not_won_after behaviors source hnone) hone hwin⟩
  rw [ht.events_eq]
  split
  · rwa [counting, List.length_mapIdx]
  · exact Nat.zero_le _

end BlockCoding.Orchard
