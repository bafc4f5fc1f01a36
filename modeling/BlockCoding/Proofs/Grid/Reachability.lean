import BlockCoding.Grid.Search
import BlockCoding.Proofs.Fault
import BlockCoding.Proofs.Grid.Bounds

/-!
# Proofs/Grid/Reachability — the search finds a goal exactly if one is reached

`goalReachable_eq_ok`: on a tiled grid whose start is not at the end of the coordinates, the
breadth-first search never faults, and it says yes exactly if a chain of steps leads from the start
to a goal.  `Frontier` is what holds between two rounds: what has been seen is reached, and whatever
is not queued any more has been explored.  Each round takes one cell off the queue, and no more
cells are ever seen than there are tiles, plus the start; so the queue is empty before the rounds
run out, and the answer is that of the search without a bound (`Concludes`).  A search from the rim
asks for a neighbour that is not there (`goalReachable_of_onRim`).
-/

namespace BlockCoding.Grid

/-! ## Entering a cell -/

theorem Tiled.isPassable_eq_ok {g : Grid} (hg : g.Tiled) (c : Cell) (gateOpen : Bool) :
    ∃ b, g.isPassable c gateOpen = .ok b := by
  obtain ⟨o, ho, -⟩ := hg.tile_eq_ok c
  rw [isPassable, ho]
  cases o with
  | none => exact ⟨_, rfl⟩
  | some t => exact ⟨_, rfl⟩

/-- What can be entered is inside the bounds. -/
theorem inBounds_of_isPassable {g : Grid} {c : Cell} {gateOpen : Bool}
    (h : g.isPassable c gateOpen = .ok true) : g.inBounds c = true := by
  cases hc : g.inBounds c with
  | true => rfl
  | false =>
    rw [isPassable, tile_of_not_inBounds hc] at h
    cases h

/-- Wherever a chain leads, it is the cell it starts from or inside the bounds. -/
theorem Reaches.eq_or_inBounds {g : Grid} {a c : Cell} (h : g.Reaches a c) :
    c = a ∨ g.inBounds c = true := by
  cases h with
  | refl => exact .inl rfl
  | step heading reached enterable => exact .inr (inBounds_of_isPassable enterable)

/-- A chain from a cell with all its neighbours leads to such cells. -/
theorem Reaches.not_onRim {g : Grid} {a c : Cell} (h : g.Reaches a c) (ha : ¬ a.OnRim) :
    ¬ c.OnRim := by
  rcases h.eq_or_inBounds with rfl | hin
  · exact ha
  · exact not_onRim_of_inBounds hin

/-! ## One round -/

/-- The fresh cells are the neighbours that can be entered and were not seen, once each. -/
theorem Tiled.fresh_eq_ok {g : Grid} (hg : g.Tiled) {c : Cell} (hc : ¬ c.OnRim)
    (seen : List Cell) (headings : List Heading) :
    ∃ found, g.fresh c seen headings = .ok found ∧ found.Nodup ∧
      ∀ d, d ∈ found ↔
        (∃ h ∈ headings, d = c.offset h) ∧ g.isPassable d true = .ok true ∧ d ∉ seen := by
  induction headings generalizing seen with
  | nil => exact ⟨[], rfl, List.nodup_nil, by simp⟩
  | cons h headings ih =>
    have hnext := Cell.offset?_of_not_onRim hc h
    obtain ⟨b, hb⟩ := hg.isPassable_eq_ok (c.offset h) true
    by_cases hd : b = true ∧ c.offset h ∉ seen
    · obtain ⟨rfl, hseen⟩ := hd
      obtain ⟨found, hfound, hnodup, hmem⟩ := ih (c.offset h :: seen)
      refine ⟨c.offset h :: found, by simp [fresh, hnext, hb, hseen, hfound], ?_, fun d => ?_⟩
      · exact List.nodup_cons.mpr ⟨fun hin => by simpa using ((hmem _).mp hin).2.2, hnodup⟩
      · rw [List.mem_cons, List.exists_mem_cons_iff, hmem d]
        by_cases hdh : d = c.offset h
        · subst hdh
          simp [hb, hseen]
        · simp [hdh]
    · obtain ⟨found, hfound, hnodup, hmem⟩ := ih seen
      refine ⟨found, ?_, hnodup, fun d => ?_⟩
      · cases b with
        | false => simp [fresh, hnext, hb, hfound]
        | true => simp [fresh, hnext, hb, hfound, show c.offset h ∈ seen by simpa using hd]
      · rw [hmem d, List.exists_mem_cons_iff]
        by_cases hdh : d = c.offset h
        · subst hdh
          rw [hb, Except.ok.injEq]
          exact ⟨fun hin => absurd hin.2 hd, fun hin => absurd hin.2 hd⟩
        · simp [hdh]

/-- Whichever headings are asked for, the one without a neighbour is a fault. -/
theorem Tiled.fresh_eq_error {g : Grid} (hg : g.Tiled) {c : Cell} {headings : List Heading}
    (hmissing : ∃ h ∈ headings, c.offset? h = .error .overflow) (seen : List Cell) :
    g.fresh c seen headings = .error .overflow := by
  induction headings generalizing seen with
  | nil => simp at hmissing
  | cons h headings ih =>
    rw [fresh]
    rcases c.offset?_ok_or_overflow h with hnext | hnext
    · obtain ⟨b, hb⟩ := hg.isPassable_eq_ok (c.offset h) true
      have hlater : ∃ h ∈ headings, c.offset? h = .error .overflow := by
        simpa [hnext] using hmissing
      simp [hnext, hb, ih hlater]
    · rw [hnext, error_bind]

/-- **How the search goes with no bound on its rounds**: from a queue and the cells seen so far it
comes to an end with an answer. -/
inductive Concludes (g : Grid) : List Cell → List Cell → Bool → Prop where
  | exhausted {seen : List Cell} : Concludes g [] seen false
  | found {c : Cell} {queue seen : List Cell} (goal : g.tile c = .ok (some .goal)) :
      Concludes g (c :: queue) seen true
  | explored {c : Cell} {queue seen found : List Cell} {o : Option Tile} {b : Bool}
      (there : g.tile c = .ok o) (other : o ≠ some .goal)
      (around : g.fresh c seen Heading.all = .ok found)
      (rest : Concludes g (queue ++ found) (found ++ seen) b) : Concludes g (c :: queue) seen b

/-- **What holds between two rounds** of a search from `a`. -/
structure Frontier (g : Grid) (a : Cell) (rounds : Nat) (queue seen : List Cell) : Prop where
  origin : a ∈ seen
  reached : ∀ c ∈ seen, g.Reaches a c
  queued : ∀ c ∈ queue, c ∈ seen
  /-- What is not queued any more is no goal, and what can be entered from it has been seen. -/
  explored : ∀ c ∈ seen, c ∉ queue → g.tile c ≠ .ok (some .goal) ∧
    ∀ h, g.isPassable (c.offset h) true = .ok true → c.offset h ∈ seen
  nodup : seen.Nodup
  /-- Each round that is gone took one cell off the queue. -/
  budget : seen.length + rounds = queue.length + g.tiles.size + 1

namespace Frontier

variable {g : Grid} {a : Cell} {rounds : Nat} {queue seen : List Cell}

/-- At most one cell more is seen than there are tiles. -/
theorem length_seen_le (hg : g.Tiled) (f : Frontier g a rounds queue seen) :
    seen.length ≤ g.tiles.size + 1 := by
  have hrest : ∀ c ∈ seen.erase a, g.inBounds c = true := fun c hc => by
    have hmem := (f.nodup.mem_erase_iff).mp hc
    exact ((f.reached c hmem.2).eq_or_inBounds).resolve_left hmem.1
  have hlen := hg.length_le_of_nodup hrest (f.nodup.erase a)
  rw [List.length_erase_of_mem f.origin] at hlen
  omega

/-- With the queue empty, everything that is reached has been seen. -/
theorem mem_of_reaches (f : Frontier g a rounds [] seen) {c : Cell} (h : g.Reaches a c) :
    c ∈ seen := by
  induction h with
  | refl => exact f.origin
  | step heading reached enterable ih => exact (f.explored _ ih List.not_mem_nil).2 _ enterable

/-- …and none of it is a goal. -/
theorem not_goal (f : Frontier g a rounds [] seen) :
    ¬ ∃ c, g.Reaches a c ∧ g.tile c = .ok (some .goal) := fun ⟨c, hreach, hgoal⟩ =>
  (f.explored c (f.mem_of_reaches hreach) List.not_mem_nil).1 hgoal

/-- A round explores the first cell of the queue and queues what is fresh around it. -/
theorem next {c : Cell} {found : List Cell} (f : Frontier g a (rounds + 1) (c :: queue) seen)
    (hgoal : g.tile c ≠ .ok (some .goal)) (hnodup : found.Nodup)
    (hfound : ∀ d, d ∈ found ↔
      (∃ h ∈ Heading.all, d = c.offset h) ∧ g.isPassable d true = .ok true ∧ d ∉ seen) :
    Frontier g a rounds (queue ++ found) (found ++ seen) where
  origin := List.mem_append_right _ f.origin
  reached d hd := by
    rcases List.mem_append.mp hd with hd | hd
    · obtain ⟨⟨h, -, rfl⟩, hpass, -⟩ := (hfound d).mp hd
      exact .step h (f.reached c (f.queued c List.mem_cons_self)) hpass
    · exact f.reached d hd
  queued d hd := by
    rcases List.mem_append.mp hd with hd | hd
    · exact List.mem_append_right _ (f.queued d (List.mem_cons_of_mem _ hd))
    · exact List.mem_append_left _ hd
  explored d hd hq := by
    rw [List.mem_append, not_or] at hq
    have hseen : d ∈ seen := (List.mem_append.mp hd).resolve_left hq.2
    by_cases hdc : d = c
    · subst hdc
      refine ⟨hgoal, fun h hpass => ?_⟩
      by_cases hold : d.offset h ∈ seen
      · exact List.mem_append_right _ hold
      · exact List.mem_append_left _
          ((hfound _).mpr ⟨⟨h, h.mem_all, rfl⟩, hpass, hold⟩)
    · obtain ⟨hno, hclosed⟩ := f.explored d hseen fun h =>
        (List.mem_cons.mp h).elim hdc hq.1
      exact ⟨hno, fun h hpass => List.mem_append_right _ (hclosed h hpass)⟩
  nodup := by
    rw [List.nodup_append]
    refine ⟨hnodup, f.nodup, fun d hd e he hde => ?_⟩
    subst hde
    exact ((hfound d).mp hd).2.2 he
  budget := by
    have := f.budget
    rw [List.length_cons] at this
    rw [List.length_append, List.length_append]
    omega

/-- **The search decides whether a goal is reached**, and its bound does not cut it short.  The
induction is on the rounds. -/
theorem search_eq_ok (hg : g.Tiled) (ha : ¬ a.OnRim) (f : Frontier g a rounds queue seen) :
    ∃ b, g.search rounds queue seen = .ok b ∧ g.Concludes queue seen b ∧
      (b = true ↔ ∃ c, g.Reaches a c ∧ g.tile c = .ok (some .goal)) := by
  induction rounds generalizing queue seen with
  | zero =>
    have hempty : queue = [] := by
      have hlen := f.length_seen_le hg
      have hbudget := f.budget
      exact List.length_eq_zero_iff.mp (by omega)
    subst hempty
    exact ⟨false, rfl, .exhausted, by simpa using f.not_goal⟩
  | succ rounds ih =>
    cases queue with
    | nil => exact ⟨false, rfl, .exhausted, by simpa using f.not_goal⟩
    | cons c queue =>
      obtain ⟨o, ho, -⟩ := hg.tile_eq_ok c
      by_cases hgoal : o = some .goal
      · subst hgoal
        exact ⟨true, by simp [search, ho], .found ho,
          by simpa using ⟨c, f.reached c (f.queued c List.mem_cons_self), ho⟩⟩
      · have hc : ¬ c.OnRim := (f.reached c (f.queued c List.mem_cons_self)).not_onRim ha
        obtain ⟨found, hfound, hnodup, hmem⟩ := hg.fresh_eq_ok hc seen Heading.all
        have hno : g.tile c ≠ .ok (some .goal) := fun h => hgoal (Except.ok.inj (ho.symm.trans h))
        obtain ⟨b, hb, hends, hiff⟩ := ih (f.next hno hnodup hmem)
        exact ⟨b, by simp [search, ho, hgoal, hfound, hb], .explored ho hgoal hfound hends, hiff⟩

end Frontier

/-! ## The whole search -/

/-- A search starts with its origin seen and queued. -/
theorem frontier_start (g : Grid) (a : Cell) : Frontier g a (g.tiles.size + 1) [a] [a] where
  origin := List.mem_cons_self
  reached c hc := by rw [List.mem_singleton.mp hc]; exact .refl
  queued _ hc := hc
  explored c hc hq := absurd hc hq
  nodup := List.nodup_singleton a
  budget := by simp only [List.length_singleton]; omega

/-- **A goal is found exactly if one is reached from the start**, on any tiled grid, wherever the
start may be as long as it has all its neighbours. -/
theorem Tiled.goalReachable_eq_ok {g : Grid} (hg : g.Tiled) (hstart : ¬ g.start.OnRim) :
    ∃ b, g.goalReachable = .ok b ∧ g.Concludes [g.start] [g.start] b ∧
      (b = true ↔ ∃ c, g.Reaches g.start c ∧ g.tile c = .ok (some .goal)) :=
  (frontier_start g g.start).search_eq_ok hg hstart

theorem WellFormed.goalReachable_iff {g : Grid} (hg : g.WellFormed) :
    g.goalReachable = .ok true ↔ ∃ c, g.Reaches g.start c ∧ g.tile c = .ok (some .goal) := by
  obtain ⟨b, hb, -, hiff⟩ :=
    hg.tiled.goalReachable_eq_ok (not_onRim_of_inBounds hg.inBounds_start)
  rw [hb, ← hiff]
  exact ⟨Except.ok.inj, congrArg _⟩

/-- **A search from the rim is a fault**, since it asks for all the neighbours of its start. -/
theorem Tiled.goalReachable_of_onRim {g : Grid} (hg : g.Tiled) (hstart : g.start.OnRim) :
    g.goalReachable = .error .overflow := by
  have hout : g.inBounds g.start = false :=
    Bool.eq_false_iff.mpr fun hin => not_onRim_of_inBounds hin hstart
  obtain ⟨h, hmissing⟩ := hstart.exists_offset?
  have haround := hg.fresh_eq_error ⟨h, h.mem_all, hmissing⟩ [g.start]
  simp [goalReachable, search, tile_of_not_inBounds hout, haround]

end BlockCoding.Grid
