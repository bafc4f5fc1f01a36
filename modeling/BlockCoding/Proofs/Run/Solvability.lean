import BlockCoding.Level.Maze
import BlockCoding.Proofs.Grid.Codes
import BlockCoding.Proofs.Grid.Route
import BlockCoding.Proofs.Run.Refinement

/-!
# Proofs/Run/Solvability — a level is accepted exactly if it can be won

The loader asks whether a goal is reachable; a learner asks whether some program wins.  A route
without detours is a program of moves that wins (`replayFrom_route`), since in a maze nothing costs
energy and no wall appears.  Conversely, whatever a run enters is reached from the start
(`Effect.reaches`), so a run that wins by standing on a goal shows that one is reachable.
-/

namespace BlockCoding

/-! ## A route as a program -/

/-- The block that moves along a heading. -/
def Heading.moveAction : Heading → Action
  | .up => .moveUp
  | .right => .moveRight
  | .down => .moveDown
  | .left => .moveLeft

/-- The blocks that move in a fixed direction. -/
def Action.fixedMoves : List Action := [.moveUp, .moveDown, .moveLeft, .moveRight]

@[simp] theorem Heading.towards_moveAction (h facing : Heading) :
    h.moveAction.towards facing = some h := by cases h <;> rfl

theorem Heading.moveAction_mem (h : Heading) : h.moveAction ∈ Action.fixedMoves := by
  cases h <;> decide

theorem Heading.moveAction_ne_repeatNext (h : Heading) (n : UInt8) :
    h.moveAction ≠ .repeatNext n := by cases h <;> nofun

namespace Grid

variable {g world : Grid}

/-- Without gates, what can be entered with the gates open can be entered. -/
theorem isPassable_of_no_gate (hgate : ∀ c, g.tile c ≠ .ok (some .gate)) {c : Cell}
    (h : g.isPassable c true = .ok true) (gateOpen : Bool) :
    g.isPassable c gateOpen = .ok true := by
  obtain ⟨tile, htile, hfree⟩ := exists_tile_of_isPassable h
  rw [isPassable, htile]
  cases tile with
  | gate => exact absurd htile (hgate c)
  | wall => cases hfree
  | path | switch | collectible | goal => rfl

end Grid

/-- On a goal, the rule of a maze holds. -/
theorem holds_maze_of_goal {world : Grid} {ctx : Context}
    (h : world.tile ctx.pos = .ok (some .goal)) :
    Rules.maze.win.holds world ctx = .ok true := by
  simp [WinRule.holds, Rules.maze, h]

/-- **A route to a goal is a program that wins**, in any world that differs from the grid by
collectibles only.  The induction is on the route; a goal on the way ends the run early. -/
theorem replayFrom_route {g : Grid} (hg : g.Tiled) (hgate : ∀ c, g.tile c ≠ .ok (some .gate))
    {c d : Cell} {hs : List Heading} (route : Grid.Route g c hs d) (hne : hs ≠ [])
    (hgoal : g.tile d = .ok (some .goal)) {world : Grid} (hworld : Grid.ClearedFrom g world)
    {ctx : Context} (hpos : ctx.pos = c) (henergy : ctx.energy ≠ 0) (trace : List Cell)
    (i : Nat) : ∃ t, replayFrom .maze world ctx trace
      (expansionFrom i (hs.map Heading.moveAction)) = .ok t ∧ t.verdict = .win := by
  induction route generalizing world ctx trace i with
  | nil => exact absurd rfl hne
  | @cons c d h hs pass rest ih =>
    subst hpos
    have hw := hworld.shape.tiled hg
    have hpass : world.isPassable (ctx.pos.offset h) ctx.gateOpen = .ok true := by
      rw [hworld.isPassable_eq]
      exact Grid.isPassable_of_no_gate hgate pass _
    obtain ⟨world', ctx', picked, hperform, hpick⟩ :=
      Rules.maze.exists_moved hw ctx (h.towards_moveAction ctx.heading) hpass
    have hctx := hpick.context_eq
    have hpos' : ctx'.pos = ctx.pos.offset h := by rw [hctx]; rfl
    have henergy' : ctx'.energy ≠ 0 := by
      rw [hctx]
      simpa [Context.spend, Rules.maze] using henergy
    have hworld' := hpick.clearedFrom hg hworld
    rw [List.map_cons, expansionFrom_plain i _ h.moveAction_ne_repeatNext]
    obtain ⟨won, hwon⟩ := Rules.maze.win.exists_holds (hworld'.shape.tiled hg) ctx'
    cases won with
    | true => exact ⟨_, replayFrom_won hperform hwon, rfl⟩
    | false =>
      have hmore : hs ≠ [] := fun hnil => by
        subst hnil
        cases rest
        have hgoal' : world'.tile ctx'.pos = .ok (some .goal) := by
          rw [hpos']
          exact hworld'.goal_iff.mpr hgoal
        rw [holds_maze_of_goal hgoal'] at hwon
        cases hwon
      obtain ⟨t, ht, hwin⟩ := ih hmore hgoal hworld' hpos' henergy' (trace ++ [ctx'.pos]) (i + 1)
      exact ⟨t.after _, by rw [replayFrom_continued hperform hwon henergy', ht]; rfl, hwin⟩

/-! ## What a run enters is reached -/

/-- A tile that lets the avatar in with the gates as they are does so with the gates open. -/
theorem Tile.isPassable_true_of_isPassable {tile : Tile} {gateOpen : Bool}
    (h : tile.isPassable gateOpen = true) : tile.isPassable true = true := by
  cases tile <;> first | rfl | exact h

section Reaching

variable {rules : Rules} {g world world' : Grid} {ctx ctx' : Context} {raised : List Event}

/-- **Wherever an action leads is reached**, if the cell it starts from is. -/
theorem Effect.reaches {action : Action} (hworld : Grid.ClearedFrom g world)
    (hreach : g.Reaches g.start ctx.pos)
    (h : Effect rules world ctx action (.performed world' ctx' raised)) :
    g.Reaches g.start ctx'.pos := by
  cases h with
  | @moved _ heading tile _ _ _ move there free pick =>
    rw [pick.context_eq]
    refine .step heading hreach ?_
    rw [← hworld.isPassable_eq, Grid.isPassable, there]
    exact congrArg _ (Tile.isPassable_true_of_isPassable free)
  | collected pick =>
    rw [Context.spend_pos, pick.context_eq]
    exact hreach
  | turned | opened | sensed | scanned | inert => exact hreach

/-- A rule that asks for a goal holds on goals only. -/
theorem goal_of_holds {required : UInt64} (hrule : rules.win = .reachGoal required)
    (hw : world.Tiled) (h : rules.win.holds world ctx = .ok true) :
    world.tile ctx.pos = .ok (some .goal) := by
  obtain ⟨o, ho, -⟩ := hw.tile_eq_ok ctx.pos
  rw [hrule, WinRule.holds, ho] at h
  have hboth := Except.ok.inj h
  rw [Bool.and_eq_true, decide_eq_true_iff] at hboth
  rw [ho, hboth.1]

/-- **A replay that is won stands on a goal that is reached.** -/
theorem exists_goal_of_replayFrom (hg : g.Tiled) {required : UInt64}
    (hrule : rules.win = .reachGoal required) (hworld : Grid.ClearedFrom g world)
    (hreach : g.Reaches g.start ctx.pos) {trace : List Cell} {actions : List (Nat × Action)}
    {t : Transcript} (h : replayFrom rules world ctx trace actions = .ok t)
    (hwin : t.verdict = .win) : ∃ c, g.Reaches g.start c ∧ g.tile c = .ok (some .goal) := by
  induction actions generalizing world ctx trace t with
  | nil =>
    obtain rfl := Except.ok.inj h
    cases hwin
  | cons head rest ih =>
    obtain ⟨index, action⟩ := head
    have hw := hworld.shape.tiled hg
    cases hw.takesUp h with
    | rejected refused =>
      rw [replayFrom_rejected refused] at h
      obtain rfl := Except.ok.inj h
      cases hwin
    | @won world' ctx' _ done won =>
      have heffect := rules.effect_of_perform hw ctx done
      have hworld' := heffect.clearedFrom hg hworld
      exact ⟨ctx'.pos, heffect.reaches hworld hreach,
        hworld'.goal_iff.mp (goal_of_holds hrule (hworld'.shape.tiled hg) won)⟩
    | outOfEnergy done unwon spent =>
      rw [replayFrom_outOfEnergy done unwon spent] at h
      obtain rfl := Except.ok.inj h
      cases hwin
    | continued done unwon left =>
      have heffect := rules.effect_of_perform hw ctx done
      rw [replayFrom_continued done unwon left] at h
      obtain ⟨later, hlater, rfl⟩ := map_eq_ok.mp h
      exact ih (heffect.clearedFrom hg hworld) (heffect.reaches hworld hreach) hlater hwin

end Reaching

/-! ## Acceptance -/

/-- **Accepted levels can be won, and what can be won is accepted.**  Every matrix of codes that is
read has a winning program of moves, one fewer at most than it has cells; and whatever wins by
standing on a goal, from the start of any well-formed grid, shows that a goal is reachable. -/
theorem accepted_solvable :
    (∀ (rows : List (List UInt8)) (g : Grid), Grid.ofCodes rows = .ok g →
      Grid.columns rows * rows.length ≤ 2147483647 →
      ∃ program : List Action, (∀ a ∈ program, a ∈ Action.fixedMoves) ∧
        program.length ≤ Grid.columns rows * rows.length - 1 ∧
        ∃ events r, (GridRun.start g .maze program).runToEnd = .ok (events, r) ∧
          r.verdict = some .win) ∧
    ∀ (g : Grid) (rules : Rules) (required : UInt64) (program : List Action)
      (events : List Event) (r : GridRun), g.WellFormed → rules.win = .reachGoal required →
      (GridRun.start g rules program).runToEnd = .ok (events, r) → r.verdict = some .win →
      g.goalReachable = .ok true := by
  constructor
  · intro rows g hread small
    have haccepted := Grid.accepted_of_ofCodes hread small
    have hwf := haccepted.wellFormed small
    obtain ⟨goal, hreach, hgoal⟩ := hwf.goalReachable_iff.mp haccepted.reachable
    obtain ⟨detour, hdetour⟩ := Grid.Route.of_reaches hreach
    obtain ⟨hs, route, hnodup⟩ := hdetour.exists_simple
    have hne : hs ≠ [] := fun hnil => by
      subst hnil
      cases route
      rw [haccepted.tile_start small] at hgoal
      cases hgoal
    have hlen := route.length_lt hwf.tiled hwf.inBounds_start hnodup
    rw [haccepted.size_eq, Nat.mul_comm] at hlen
    obtain ⟨t, r, hreplay, hrun, hshows⟩ :=
      GridRun.exists_shows hwf .maze (hs.map Heading.moveAction)
    have henergy : (Context.initial g .maze).energy ≠ 0 :=
      show Rules.maze.startEnergy ≠ 0 by decide
    obtain ⟨t', hwins, hwin⟩ := replayFrom_route hwf.tiled haccepted.tile_ne_gate route hne hgoal
      (.refl g) rfl henergy [g.start] 0
    obtain rfl : t = t' := Except.ok.inj (hreplay.symm.trans hwins)
    refine ⟨hs.map Heading.moveAction, fun a ha => ?_, ?_, t.events, r, hrun, ?_⟩
    · obtain ⟨h, -, rfl⟩ := List.mem_map.mp ha
      exact h.moveAction_mem
    · rw [List.length_map]
      omega
    · rw [hshows.verdict, hwin]
  · intro g rules required program events r hwf hrule hrun hwin
    obtain ⟨t, r', hreplay, hrun', hshows⟩ := GridRun.exists_shows hwf rules program
    obtain ⟨-, rfl⟩ := Prod.mk.inj (Except.ok.inj (hrun.symm.trans hrun'))
    obtain ⟨c, hreach, hgoal⟩ := exists_goal_of_replayFrom hwf.tiled hrule (.refl g) .refl hreplay
      (Option.some.inj (hshows.verdict.symm.trans hwin))
    exact hwf.goalReachable_iff.mpr ⟨c, hreach, hgoal⟩

/-- The first level, and the program that wins in the ruins past their gate. -/
theorem accepted_solvable_first :
    (∃ g program, Grid.ofCodes MazeLevel.first.map = .ok g ∧
      program.length ≤ Grid.columns MazeLevel.first.map * MazeLevel.first.map.length - 1 ∧
      ∃ events r, (GridRun.start g .maze program).runToEnd = .ok (events, r) ∧
        r.verdict = some .win) ∧
    ∃ events r, (GridRun.start Ruins.grid .ruins (Action.ofNames Ruins.solution)).runToEnd
        = .ok (events, r) ∧ r.verdict = some .win ∧ Ruins.grid.goalReachable = .ok true := by
  constructor
  · have hread : (Grid.ofCodes MazeLevel.first.map).toBool = true := by decide +kernel
    cases hg : Grid.ofCodes MazeLevel.first.map with
    | error e => rw [hg] at hread; cases hread
    | ok g =>
      obtain ⟨program, -, hlen, hwins⟩ := accepted_solvable.1 _ g hg (by decide)
      exact ⟨g, program, rfl, hlen, hwins⟩
  · have hwins : ((GridRun.start Ruins.grid .ruins (Action.ofNames Ruins.solution)).runToEnd.map
        (·.2.verdict)) = .ok (some .win) := by decide +kernel
    obtain ⟨⟨events, r⟩, hrun, hverdict⟩ := map_eq_ok.mp hwins
    exact ⟨events, r, hrun, hverdict, accepted_solvable.2 Ruins.grid .ruins 3 _ events r
      (by decide +kernel) rfl hrun hverdict⟩

end BlockCoding
