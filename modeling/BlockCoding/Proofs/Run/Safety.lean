import BlockCoding.Proofs.Level.Worlds
import BlockCoding.Proofs.Run.Stepping

/-!
# Proofs/Run/Safety — a run computes exactly, and ends

Coordinates, positions and repeat counts are kept in words.  In a run on a well-formed grid each of
them fits: `GridRun.Exact` says so of every number that the next step may compute, whatever cell it
looks at and wherever it goes.  Soundness gives it (`Sound.exact`), so it
holds in every state that stepping reaches; and a run reaches its verdict with one step more, at
most, than its program has actions to execute (`exact_and_ending`).
-/

namespace BlockCoding

/-- The cells in the rows above a cell inside the bounds are counted exactly. -/
theorem Grid.Tiled.toInt_rows {g : Grid} (hg : g.Tiled) {c : Cell} (hc : g.inBounds c = true) :
    (c.y * g.width).toInt = c.y.toInt * g.width.toInt := by
  obtain ⟨⟨hx₀, hx⟩, hy₀, hy⟩ := inBounds_iff.mp hc
  have hrow : 0 ≤ c.y.toInt * g.width.toInt := Int.mul_nonneg hy₀ (by omega)
  have hposition := hg.toInt_position hc
  have hsize := hg.size_eq
  have harea := hg.area_lt
  rw [Int32.toInt_mul]
  exact Int.bmod_eq_of_le_mul_two (by omega) (by omega)

namespace GridRun

/-- **Every number that the next step may compute fits into its word**, and no tile it may look at
is missing. -/
structure Exact (r : GridRun) : Prop where
  /-- The avatar may move or try to move along any heading. -/
  neighbour : ∀ h : Heading,
    (r.context.pos.offset h).x.toInt = r.context.pos.x.toInt + h.delta.1.toInt ∧
      (r.context.pos.offset h).y.toInt = r.context.pos.y.toInt + h.delta.2.toInt
  /-- The position of a cell is computed only if the cell is inside the bounds. -/
  position : ∀ c, r.world.inBounds c = true →
    (c.y * r.world.width).toInt = c.y.toInt * r.world.width.toInt ∧
      (r.world.position c).toInt = c.y.toInt * r.world.width.toInt + c.x.toInt ∧
      0 ≤ (r.world.position c).toInt ∧ (r.world.position c).toInt < r.world.tiles.size
  /-- A pending repeat is counted down from its own count, and never below zero. -/
  counter : r.verdict = none → ∀ p, r.pending = some p →
    ∃ n, r.program[r.cursor]? = some (.repeatNext n) ∧ p.remaining < n ∧ 0 < p.remaining

/-- **A sound run computes exactly.** -/
theorem Sound.exact {r : GridRun} (h : r.Sound) : r.Exact where
  neighbour := Grid.toInt_offset h.inside.pos
  position _ hc := ⟨h.tiled.toInt_rows hc, h.tiled.toInt_position hc⟩
  counter hv p hp := by
    obtain ⟨n, hrepeat, -, hpos, hlt, -⟩ := h.coherent hv p hp
    exact ⟨n, hrepeat, hlt, hpos⟩

/-- **A run computes exactly, and ends.**  Accepted levels whose tiles can be counted, the ruins and
every mine are well formed.  On a well-formed grid, under any rules and with any program, no step is
a fault, and every number fits; and the run to the end stops at its verdict, after as many steps as
there are actions to execute, and one more, at most. -/
theorem exact_and_ending :
    (∀ (rows : List (List UInt8)) (g : Grid), Grid.ofCodes rows = .ok g →
      g.tiles.size ≤ 2147483647 → g.WellFormed) ∧
    Ruins.grid.WellFormed ∧ (∀ source : Pcg, (Mine.generate source).1.WellFormed) ∧
    ∀ (g : Grid) (rules : Rules) (program : List Action), g.WellFormed →
      (∀ n, ∃ events r, stepTimes n (start g rules program) = .ok (events, r) ∧ r.Exact) ∧
      ∃ calls events r verdict, calls ≤ (expansion program).length + 1 ∧
        stepTimes calls (start g rules program) = .ok (events, r) ∧ r.verdict = some verdict ∧
        (start g rules program).runToEnd = .ok (events, r) ∧
        ∀ k < calls, ∃ before q, stepTimes k (start g rules program) = .ok (before, q) ∧
          q.verdict = none := by
  refine ⟨fun _ _ => Grid.wellFormed_of_ofCodes, Ruins.wellFormed_grid,
    fun source => Mine.wellFormed_generate source, ?_⟩
  · intro g rules program hg
    have hsound := sound_start hg rules program
    constructor
    · intro n
      obtain ⟨events, r, hsteps, hr, -⟩ :=
        @Sound.exists_stepTimes (fun _ _ => True) (fun _ _ _ => trivial) _ hsound [] trivial n
      exact ⟨events, r, hsteps, hr.exact⟩
    · obtain ⟨t, r, -, hrun, hshows⟩ := exists_shows hg rules program
      have hend := hrun
      rw [runToEnd, steps_eq_stepTimes] at hend
      obtain ⟨calls, hcalls, hlast, hbefore⟩ := exists_last_step hend hshows.verdict
      exact ⟨calls, t.events, r, t.verdict, hcalls, hlast, hshows.verdict, hrun, hbefore⟩

/-- The first level is accepted, and the winning program of the ruins, which comes to 23 actions,
ends there. -/
theorem exact_and_ending_ruins :
    (∃ g, MazeLevel.first.build = .ok g ∧ g.WellFormed) ∧ Ruins.grid.WellFormed ∧
    ∃ calls events r, calls ≤ 24 ∧
      stepTimes calls (start Ruins.grid .ruins (Action.ofNames Ruins.solution))
        = .ok (events, r) ∧ r.verdict.isSome = true ∧ r.Exact := by
  obtain ⟨hread, hruins, -, hruns⟩ := exact_and_ending
  obtain ⟨hexact, calls, events, r, verdict, hcalls, hlast, hverdict, -⟩ :=
    hruns Ruins.grid .ruins (Action.ofNames Ruins.solution) (by decide +kernel)
  have hlength : (expansion (Action.ofNames Ruins.solution)).length = 23 := by decide +kernel
  rw [hlength] at hcalls
  obtain ⟨events', r', hsteps, hr⟩ := hexact calls
  obtain ⟨-, rfl⟩ := Prod.mk.inj (Except.ok.inj (hsteps.symm.trans hlast))
  have hlevel : MazeLevel.first.build.map (fun g => g.tiles.size) = .ok 24 := by decide +kernel
  obtain ⟨g, hbuild, hsize⟩ := map_eq_ok.mp hlevel
  exact ⟨⟨g, hbuild, hread _ g hbuild (by omega)⟩, hruins, calls, events, r', hcalls, hlast,
    by rw [hverdict]; rfl, hr⟩

end GridRun

end BlockCoding
