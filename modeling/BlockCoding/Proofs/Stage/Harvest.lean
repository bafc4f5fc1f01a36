import BlockCoding.Proofs.Stage.Frames
import BlockCoding.Stage.Orchard
import Mathlib.Algebra.Group.Nat.Defs
import Mathlib.Data.List.Nodup

/-!
# Proofs/Stage/Harvest — no fruit is lost, counted twice or handed out again

A tick goes over its fruits in one pass that lets each of them fall, and catches it, keeps it or
loses it.  `settle_eq` takes the pass apart into the fruits that are caught and those that stay, and
`Gathers` says all that a tick does.  Since every sixtieth tick hands out one id, the number of
ticks alone tells which ids there can be (`Stocked`), and for how long they last (`after?_start`);
an id below the next one is never handed out again (`mem_ids_of_later`), and the score is what has
been told (`harvest_kept`).
-/

namespace BlockCoding.Orchard

/-! ## One pass over the fruits -/

/-- The fruits that are in the basket once they have fallen. -/
def inBasket (playerX : Float32) (fruits : List Fruit) : List Fruit :=
  (fruits.map Fruit.fall).filter fun f => f.isCaught playerX

/-- The fruits that are neither in the basket nor off the stage once they have fallen. -/
def onStage (playerX : Float32) (fruits : List Fruit) : List Fruit :=
  (fruits.map Fruit.fall).filter fun f => f.pos.y < 110 && !f.isCaught playerX

/-- What is told of fruits that are counted one after the other. -/
def counting (score : ℕ) (fruits : List Fruit) : List Event :=
  fruits.mapIdx fun i _ => .fruitCaught (score + (i + 1))

variable {playerX : Float32} {fruits : List Fruit}

theorem counting_eq_map_range (score : ℕ) (fruits : List Fruit) : counting score fruits
    = (List.range fruits.length).map fun i => .fruitCaught (score + (i + 1)) := by
  refine List.ext_getElem (by simp [counting]) fun i _ _ => ?_
  simp [counting]

theorem counting_cons (score : ℕ) (f : Fruit) :
    counting score (f :: fruits) = .fruitCaught (score + 1) :: counting (score + 1) fruits := by
  rw [counting, List.mapIdx_cons, counting]
  congr 1
  refine congrArg₂ List.mapIdx (funext₂ fun i _ => congrArg Event.fruitCaught ?_) rfl
  omega

/-- **The pass over the fruits**: those in the basket are counted in their order, if catches count,
and those on the stage stay. -/
theorem settle_eq (playerX : Float32) (scoring : Bool) (score : ℕ) (fruits : List Fruit) :
    settle playerX scoring score fruits = (onStage playerX fruits,
      if scoring then score + (inBasket playerX fruits).length else score,
      if scoring then counting score (inBasket playerX fruits) else []) := by
  induction fruits generalizing score with
  | nil => cases scoring <;> simp [settle, onStage, inBasket, counting]
  | cons f fruits ih =>
    rw [settle]
    by_cases hcaught : f.fall.isCaught playerX
    · have hbasket : inBasket playerX (f :: fruits) = f.fall :: inBasket playerX fruits := by
        simp [inBasket, hcaught]
      have hstage : onStage playerX (f :: fruits) = onStage playerX fruits := by
        simp [onStage, hcaught]
      cases scoring with
      | false => simp [hcaught, ih, hstage]
      | true =>
        simp only [hcaught, ih, hstage, hbasket, if_true, counting_cons, List.length_cons]
        rw [Nat.add_assoc, Nat.add_comm 1]
    · have hbasket : inBasket playerX (f :: fruits) = inBasket playerX fruits := by
        simp [inBasket, hcaught]
      have hstage : onStage playerX (f :: fruits)
          = if f.fall.pos.y < 110 then f.fall :: onStage playerX fruits
            else onStage playerX fruits := by
        simp [onStage, hcaught, List.filter_cons]
      simp only [hcaught, ih, hstage, hbasket, if_false, Bool.false_eq_true]

/-- A fruit is in the basket or on the stage, or gone, but never two of these. -/
theorem length_inBasket_add_onStage (playerX : Float32) (fruits : List Fruit) :
    (inBasket playerX fruits).length + (onStage playerX fruits).length ≤ fruits.length := by
  have hstage : (onStage playerX fruits).length
      ≤ ((fruits.map Fruit.fall).filter fun f => !f.isCaught playerX).length := by
    rw [onStage, ← List.filter_filter]
    exact List.length_filter_le ..
  have hsplit := List.length_eq_length_filter_add (l := fruits.map Fruit.fall)
    fun f => f.isCaught playerX
  rw [List.length_map] at hsplit
  rw [hsplit, inBasket]
  omega

theorem inBasket_ids_sublist (playerX : Float32) (fruits : List Fruit) :
    ((inBasket playerX fruits).map Fruit.id).Sublist (fruits.map Fruit.id) := by
  have hsub := (List.filter_sublist (l := fruits.map Fruit.fall)
    (p := fun f => f.isCaught playerX)).map Fruit.id
  rwa [List.map_map] at hsub

theorem onStage_ids_sublist (playerX : Float32) (fruits : List Fruit) :
    ((onStage playerX fruits).map Fruit.id).Sublist (fruits.map Fruit.id) := by
  have hsub := (List.filter_sublist (l := fruits.map Fruit.fall)
    (p := fun f => f.pos.y < 110 && !f.isCaught playerX)).map Fruit.id
  rwa [List.map_map] at hsub

/-- A fruit in the basket is no longer on the stage. -/
theorem notMem_onStage_ids (hnodup : (fruits.map Fruit.id).Nodup) {id : ℕ}
    (hid : id ∈ (inBasket playerX fruits).map Fruit.id) :
    id ∉ (onStage playerX fruits).map Fruit.id := by
  intro hstays
  obtain ⟨f, hf, rfl⟩ := List.mem_map.mp hid
  obtain ⟨g, hg, hsame⟩ := List.mem_map.mp hstays
  rw [inBasket, List.mem_filter] at hf
  rw [onStage, List.mem_filter] at hg
  have hids : ((fruits.map Fruit.fall).map Fruit.id).Nodup := by rwa [List.map_map]
  obtain rfl := List.inj_on_of_nodup_map hids hg.1 hf.1 hsame
  simp [hf.2] at hg

/-! ## One tick -/

/-- The ids of the fruits, in their order. -/
def ids (o : Orchard) : List ℕ := o.fruits.map Fruit.id

/-- The id that the next tick hands out, if it hands out one. -/
def fresh (o : Orchard) : List ℕ :=
  if (o.frame + 1) % spawnFrames = 0 then [o.nextId] else []

theorem pairwise_fresh (o : Orchard) : o.fresh.Pairwise (· < ·) := by
  rw [fresh]
  split
  · exact List.pairwise_singleton ..
  · exact .nil

variable {σ : Type}

/-- **What a tick does to an orchard.** -/
structure Gathers (o : Orchard) (t : Tick Orchard σ) : Prop where
  frame_eq : t.state.frame = o.frame + 1
  behaviors_eq : t.state.behaviors = o.behaviors
  nextId_eq : t.state.nextId = o.nextId + o.fresh.length
  ids_eq : t.state.ids = (onStage t.state.playerX o.fruits).map Fruit.id ++ o.fresh
  score_eq : t.state.score = if o.behaviors.scoring
    then o.score + (inBasket t.state.playerX o.fruits).length else o.score
  events_eq : t.events = if o.behaviors.scoring
    then counting o.score (inBasket t.state.playerX o.fruits) else []
  verdict_eq : t.verdict = if scoreToWin ≤ t.state.score then some .win else none

/-- A fruit that has just appeared above the stage is too high to be caught. -/
theorem isCaught_fall_new {f : Fruit} (hnew : f.pos.y = -10) :
    f.fall.isCaught playerX = false := by
  have hhigh : ¬ (80 : Float32) < -10 + Fruit.fallSpeed := by decide
  simp [Fruit.isCaught, Fruit.fall, hnew, hhigh]

theorem inBasket_append_new {new : List Fruit} (hnew : ∀ f ∈ new, f.pos.y = -10) :
    inBasket playerX (fruits ++ new) = inBasket playerX fruits := by
  have hnone : inBasket playerX new = [] := by
    rw [inBasket, List.filter_eq_nil_iff, List.forall_mem_map]
    exact fun f hf => Bool.not_eq_true _ ▸ isCaught_fall_new (hnew f hf)
  rw [inBasket, List.map_append, List.filter_append, ← inBasket, ← inBasket, hnone,
    List.append_nil]

/-- What has just appeared stays. -/
theorem onStage_ids_append_new {new : List Fruit} (hnew : ∀ f ∈ new, f.pos.y = -10) :
    (onStage playerX (fruits ++ new)).map Fruit.id
      = (onStage playerX fruits).map Fruit.id ++ new.map Fruit.id := by
  have hall : onStage playerX new = new.map Fruit.fall := by
    rw [onStage, List.filter_eq_self, List.forall_mem_map]
    intro f hf
    have hstage : f.fall.pos.y < 110 := by
      change f.pos.y + Fruit.fallSpeed < 110
      rw [hnew f hf]
      decide
    simp [isCaught_fall_new (hnew f hf), hstage]
  have hids : (onStage playerX new).map Fruit.id = new.map Fruit.id := by
    rw [hall, List.map_map]
    rfl
  rw [onStage, List.map_append, List.filter_append, ← onStage, ← onStage, List.map_append, hids]

/-- The fruits that appear in a tick are above the stage, with the fresh id. -/
theorem exists_new [RandomSource σ] (o : Orchard) (source : σ) : ∃ (new : List Fruit) (rest : σ),
    (∀ f ∈ new, f.pos.y = -10) ∧ new.map Fruit.id = o.fresh ∧
      (if (o.frame + 1) % spawnFrames = 0 then { o with frame := o.frame + 1 }.spawn source
        else ({ o with frame := o.frame + 1 }, source))
      = ({ o with frame := o.frame + 1, fruits := o.fruits ++ new,
                  nextId := o.nextId + new.length }, rest) := by
  by_cases hdue : (o.frame + 1) % spawnFrames = 0
  · rw [fresh, if_pos hdue, if_pos hdue]
    exact ⟨[⟨o.nextId, ⟨_, -10⟩, _⟩], _, by simp, rfl, rfl⟩
  · rw [fresh, if_neg hdue, if_neg hdue]
    exact ⟨[], source, nofun, rfl, by simp⟩

/-- **This is what every tick does.** -/
theorem gathers_tick [RandomSource σ] (o : Orchard) (source : σ) :
    o.Gathers (o.tick source) := by
  obtain ⟨new, rest, hnew, hids, heq⟩ := o.exists_new source
  have hlength : o.fresh.length = new.length := by rw [← hids, List.length_map]
  rw [tick]
  dsimp only
  rw [heq]
  simp only [driftBasket, settle_eq, inBasket_append_new hnew]
  refine ⟨rfl, rfl, ?_, ?_, rfl, rfl, rfl⟩
  · rw [hlength]
  · rw [ids, onStage_ids_append_new hnew, hids]

/-! ## Which ids there can be -/

/-- **What the number of ticks tells of an orchard**: which id comes next, and that its fruits have
different ones of the ids before.  Each of them is on the stage, counted, or gone. -/
structure Stocked (n : ℕ) (o : Orchard) : Prop where
  frame_eq : o.frame = n
  nextId_eq : o.nextId = 1 + n / 60
  increasing : o.ids.Pairwise (· < ·)
  ids_le : ∀ id ∈ o.ids, 1 ≤ id ∧ id ≤ n / 60
  score_le : o.score + o.fruits.length ≤ n / 60

theorem stocked_start (behaviors : OrchardBehaviors) : Stocked 0 (start behaviors) :=
  ⟨rfl, rfl, .nil, nofun, Nat.le_refl 0⟩

variable {o : Orchard} {t : Tick Orchard σ} {n : ℕ}

/-- Every sixtieth tick hands out an id. -/
theorem Stocked.fresh_eq (h : Stocked n o) :
    o.fresh = if (n + 1) % 60 = 0 then [o.nextId] else [] := by
  rw [fresh, h.frame_eq, spawnFrames]

theorem Stocked.length_fresh (h : Stocked n o) : o.fresh.length = (n + 1) / 60 - n / 60 := by
  rw [h.fresh_eq]
  split
  · rw [List.length_singleton]
    omega
  · rw [List.length_nil]
    omega

/-- An id that is handed out is greater than all before. -/
theorem Stocked.eq_of_mem_fresh (h : Stocked n o) {id : ℕ} (hid : id ∈ o.fresh) :
    id = 1 + n / 60 ∧ (n + 1) / 60 = 1 + n / 60 := by
  rw [h.fresh_eq] at hid
  split at hid
  · obtain rfl := List.mem_singleton.mp hid
    exact ⟨h.nextId_eq, by omega⟩
  · exact absurd hid List.not_mem_nil

/-- What is there after a tick was there before, or is fresh. -/
theorem Gathers.mem_or_mem_fresh (ht : o.Gathers t) {id : ℕ} (hid : id ∈ t.state.ids) :
    id ∈ o.ids ∨ id ∈ o.fresh := by
  rw [ht.ids_eq, List.mem_append] at hid
  exact hid.imp_left fun hstays => (onStage_ids_sublist _ _).subset hstays

theorem Gathers.length_fruits (ht : o.Gathers t) : t.state.fruits.length
    = (onStage t.state.playerX o.fruits).length + o.fresh.length := by
  have hlength := congrArg List.length ht.ids_eq
  rwa [ids, List.length_map, List.length_append, List.length_map] at hlength

/-- **A tick leaves an orchard stocked.** -/
theorem Gathers.stocked (ht : o.Gathers t) (h : Stocked n o) : Stocked (n + 1) t.state where
  frame_eq := by rw [ht.frame_eq, h.frame_eq]
  nextId_eq := by
    rw [ht.nextId_eq, h.nextId_eq, h.length_fresh]
    omega
  increasing := by
    have hsub : ((onStage t.state.playerX o.fruits).map Fruit.id).Sublist o.ids :=
      onStage_ids_sublist ..
    rw [ht.ids_eq, List.pairwise_append]
    refine ⟨h.increasing.sublist hsub, o.pairwise_fresh, fun id hid next hnext => ?_⟩
    have hle := (h.ids_le id (hsub.subset hid)).2
    rw [(h.eq_of_mem_fresh hnext).1]
    omega
  ids_le id hid := by
    rcases ht.mem_or_mem_fresh hid with hid | hid
    · obtain ⟨hpos, hle⟩ := h.ids_le id hid
      exact ⟨hpos, Nat.le_trans hle (Nat.div_le_div_right (Nat.le_succ n))⟩
    · obtain ⟨hid, hdiv⟩ := h.eq_of_mem_fresh hid
      omega
  score_le := by
    have hscore := h.score_le
    have hlength := length_inBasket_add_onStage t.state.playerX o.fruits
    rw [ht.score_eq, ht.length_fruits, h.length_fresh]
    split <;> omega

/-! ## What is told -/

/-- What is told of a score: it was counted from 1 on, one by one. -/
def catches (score : ℕ) : List Event := (List.range score).map fun i => .fruitCaught (i + 1)

/-- **What a tick tells comes next.** -/
theorem Gathers.catches_eq (ht : o.Gathers t) :
    catches t.state.score = catches o.score ++ t.events := by
  rw [ht.score_eq, ht.events_eq]
  split
  · rw [catches, List.range_add, List.map_append, ← catches, List.map_map, counting_eq_map_range]
    rfl
  · exact (List.append_nil _).symm

/-- **What a tick tells, it tells of fruits**: each event of one of the fruits in the basket, which
were all there before, are all different, and are no longer there. -/
structure Picks (o : Orchard) (t : Tick Orchard σ) : Prop where
  events_eq : t.events = if o.behaviors.scoring
    then counting o.score (inBasket t.state.playerX o.fruits) else []
  sublist : ((inBasket t.state.playerX o.fruits).map Fruit.id).Sublist o.ids
  nodup : ((inBasket t.state.playerX o.fruits).map Fruit.id).Nodup
  gone : ∀ id ∈ (inBasket t.state.playerX o.fruits).map Fruit.id, id ∉ t.state.ids

theorem Gathers.picks (ht : o.Gathers t) (h : Stocked n o) : o.Picks t := by
  have hsub := inBasket_ids_sublist t.state.playerX o.fruits
  have hnodup : o.ids.Nodup := h.increasing.imp Nat.ne_of_lt
  refine ⟨ht.events_eq, hsub, hnodup.sublist hsub, fun id hid => ?_⟩
  rw [ht.ids_eq, List.mem_append, not_or]
  refine ⟨notMem_onStage_ids hnodup hid, fun hfresh => ?_⟩
  have hold := h.ids_le id (hsub.subset hid)
  have hnew := h.eq_of_mem_fresh hfresh
  omega

/-! ## All ticks -/

variable [RandomSource σ]

/-- The number of ticks tells what an orchard is stocked with. -/
theorem stocked_after (behaviors : OrchardBehaviors) (source : σ) (n : ℕ) :
    Stocked n (Tick.after Orchard.tick n (start behaviors) source).1 := by
  induction n with
  | zero => exact stocked_start behaviors
  | succ n ih =>
    rw [Tick.after_succ]
    exact (gathers_tick _ _).stocked ih

/-- What is stocked fits as long as there is an id for the next fruit. -/
theorem Stocked.fits_iff (h : Stocked n o) : o.fits = true ↔ n < 60 * (2 ^ 32 - 1) := by
  have hscore := h.score_le
  rw [fits, Bool.and_eq_true, Bool.and_eq_true, decide_eq_true_iff, decide_eq_true_iff,
    decide_eq_true_iff, h.frame_eq, h.nextId_eq]
  simp only [UInt64.size, UInt32.size]
  omega

/-- **The ticks of an orchard go well for as long as there are ids**, and no longer. -/
theorem after?_start (behaviors : OrchardBehaviors) (source : σ) (n : ℕ) :
    Tick.after? Orchard.tick? n (start behaviors) source
      = if n < 60 * (2 ^ 32 - 1) then .ok (Tick.after Orchard.tick n (start behaviors) source)
        else .error .overflow := by
  have heach (k : ℕ) :
      (Tick.nth Orchard.tick k (start behaviors) source).state.fits = true ↔
        k + 1 < 60 * (2 ^ 32 - 1) :=
    ((gathers_tick _ _).stocked (stocked_after behaviors source k)).fits_iff
  have hall : (∀ k < n, (Tick.nth Orchard.tick k (start behaviors) source).state.fits = true) ↔
      n < 60 * (2 ^ 32 - 1) := by
    simp only [heach]
    exact ⟨fun h => by have := h (n - 1); omega, fun hn k hk => by omega⟩
  refine (Tick.after?_eq Orchard.tick _ source fits n).trans ?_
  simp only [hall]

/-- What an orchard has told is what it has counted. -/
theorem told_after (behaviors : OrchardBehaviors) (source : σ) (n : ℕ) :
    Tick.told (Tick.inRow Orchard.tick n (start behaviors) source)
      = catches (Tick.after Orchard.tick n (start behaviors) source).1.score := by
  induction n with
  | zero => rfl
  | succ n ih =>
    rw [Tick.told_inRow_succ, ih, Tick.after_succ]
    exact (gathers_tick _ _).catches_eq.symm

/-- A fruit that is there later, under an id that has been handed out by now, is there now. -/
theorem mem_ids_of_later (behaviors : OrchardBehaviors) (source : σ) {k n : ℕ} (hle : k ≤ n)
    {id : ℕ} (hid : id ≤ k / 60)
    (hlater : id ∈ (Tick.after Orchard.tick n (start behaviors) source).1.ids) :
    id ∈ (Tick.after Orchard.tick k (start behaviors) source).1.ids := by
  induction hle with
  | refl => exact hlater
  | @step n hle ih =>
    refine ih ?_
    rw [Tick.after_succ] at hlater
    rcases (gathers_tick _ _).mem_or_mem_fresh hlater with hlater | hlater
    · exact hlater
    · have hnew := ((stocked_after behaviors source n).eq_of_mem_fresh hlater).1
      have hdiv := Nat.div_le_div_right (c := 60) hle
      omega

/-- Where catches do not count, nothing is counted. -/
theorem score_after {behaviors : OrchardBehaviors} (hscoring : behaviors.scoring = false)
    (source : σ) (n : ℕ) : (Tick.after Orchard.tick n (start behaviors) source).1.score = 0 := by
  have hkept (o : Orchard) (source : σ) (h : o.behaviors.scoring = false ∧ o.score = 0) :
      (o.tick source).state.behaviors.scoring = false ∧ (o.tick source).state.score = 0 := by
    have ht := o.gathers_tick source
    rw [ht.behaviors_eq, ht.score_eq, if_neg (Bool.not_eq_true _ ▸ h.1)]
    exact h
  exact (Tick.after_induction hkept ⟨hscoring, rfl⟩ n).2

/-- **An orchard keeps count**, for as long as there are ids.  After `n` ticks, none of them a
fault, these tell which ids its fruits can have; a fruit that is gone does not come back; what it
has told are the numbers up to its score, each of a fruit that was picked in that tick; and it is
won in every tick that has ten or more, which takes a scoring block. -/
theorem harvest_kept (behaviors : OrchardBehaviors) (source : σ) (n : ℕ)
    (hn : n < 60 * (2 ^ 32 - 1)) :
    let orchard (k : ℕ) := (Tick.after Orchard.tick k (start behaviors) source).1
    let ticks := Tick.inRow Orchard.tick n (start behaviors) source
    Tick.after? Orchard.tick? n (start behaviors) source
        = .ok (Tick.after Orchard.tick n (start behaviors) source) ∧
      Stocked n (orchard n) ∧
      (∀ k m, k ≤ m → m ≤ n → ∀ id ∈ (orchard k).ids, id ∉ (orchard m).ids →
        id ∉ (orchard n).ids) ∧
      Tick.told ticks = catches (orchard n).score ∧
      (∀ k < n, (orchard k).Picks (Tick.nth Orchard.tick k (start behaviors) source)) ∧
      (behaviors.scoring = false → (orchard n).score = 0 ∧ ∀ t ∈ ticks, t.verdict = none) ∧
      ∀ t ∈ ticks, t.verdict = if 10 ≤ t.state.score then some .win else none := by
  intro orchard ticks
  have hverdict : ∀ t ∈ ticks, t.verdict = if 10 ≤ t.state.score then some .win else none := by
    intro t ht
    obtain ⟨k, -, rfl⟩ := (Tick.mem_inRow_iff ..).mp ht
    exact (gathers_tick _ _).verdict_eq
  refine ⟨(after?_start behaviors source n).trans (if_pos hn), stocked_after behaviors source n,
    fun k m hkm hmn id hid hgone hback => hgone ?_, told_after behaviors source n,
    fun k _ => (gathers_tick _ _).picks (stocked_after behaviors source k),
    fun hscoring => ⟨score_after hscoring source n, fun t ht => ?_⟩, hverdict⟩
  · have hle := ((stocked_after behaviors source k).ids_le id hid).2
    exact mem_ids_of_later behaviors source hmn
      (Nat.le_trans hle (Nat.div_le_div_right hkm)) hback
  · rw [hverdict t ht]
    obtain ⟨k, -, rfl⟩ := (Tick.mem_inRow_iff ..).mp ht
    have hzero := score_after hscoring source (k + 1)
    rw [Tick.after_succ] at hzero
    rw [hzero]
    rfl

/-- The first fruit of this orchard falls into the basket: the second is there, one is counted, and
nothing else has been told. -/
theorem harvest_kept_first :
    let o := (Tick.after Orchard.tick 172 (start ⟨0, true⟩) (Pcg.ofSeed 1)).1
    172 < 60 * (2 ^ 32 - 1) ∧ o.score = 1 ∧ o.ids = [2] ∧ Stocked 172 o ∧
      Tick.told (Tick.inRow Orchard.tick 172 (start ⟨0, true⟩) (Pcg.ofSeed 1))
        = [.fruitCaught 1] := by
  intro o
  have hcaught : o.score = 1 ∧ o.ids = [2] := by decide +kernel
  have hids : 172 < 60 * (2 ^ 32 - 1) := by decide
  obtain ⟨-, hstocked, -, htold, -⟩ := harvest_kept ⟨0, true⟩ (Pcg.ofSeed 1) 172 hids
  refine ⟨hids, hcaught.1, hcaught.2, hstocked, ?_⟩
  rw [htold, hcaught.1]
  rfl

end BlockCoding.Orchard
