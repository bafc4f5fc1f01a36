import BlockCoding.Proofs.Run.Refinement

/-!
# Proofs/Run/Appending — blocks that come later do not change what is settled

A program comes to its own actions first, whatever blocks are appended to it: even a repeat block
that gets a body in this way asks for nothing before (`expansionFrom_prefix_append`).  And a replay
that ends before its actions run out does not look at those behind (`replayFrom_append`).  So a run
that ends with any verdict but that its program is over ends the same with more blocks
(`runToEnd_append`).
-/

namespace BlockCoding

/-- **A program with further blocks comes to the same actions first.** -/
theorem expansionFrom_prefix_append (i : Nat) (program later : List Action) :
    expansionFrom i program <+: expansionFrom i (program ++ later) := by
  fun_induction expansionFrom i program with
  | case1 i => exact List.nil_prefix
  | case2 i n body rest ih =>
    rw [List.cons_append, List.cons_append, expansionFrom_repeat]
    exact (List.prefix_append_right_inj _).mpr ih
  | case3 i n => exact List.nil_prefix
  | case4 i action rest hbody hlast ih =>
    rw [List.cons_append, expansionFrom_plain i _ (ne_repeatNext hbody hlast)]
    exact (List.prefix_cons_inj _).mpr ih

/-- **A replay that is settled does not look at the actions behind.**  The induction is on the
actions; the one that settles it has nothing to do with the rest. -/
theorem replayFrom_append {rules : Rules} {world : Grid} (hw : world.Tiled) {ctx : Context}
    {trace : List Cell} {actions : List (Nat × Action)} {t : Transcript}
    (h : replayFrom rules world ctx trace actions = .ok t)
    (hsettled : t.verdict ≠ .fail .incomplete) (later : List (Nat × Action)) :
    replayFrom rules world ctx trace (actions ++ later) = .ok t := by
  induction actions generalizing world ctx trace t with
  | nil =>
    obtain rfl := Except.ok.inj h
    exact absurd rfl hsettled
  | cons head rest ih =>
    obtain ⟨index, action⟩ := head
    rw [List.cons_append]
    cases hw.takesUp h with
    | rejected refused =>
      rw [replayFrom_rejected refused] at h ⊢
      exact h
    | won done won =>
      rw [replayFrom_won done won] at h ⊢
      exact h
    | outOfEnergy done unwon spent =>
      rw [replayFrom_outOfEnergy done unwon spent] at h ⊢
      exact h
    | continued done unwon left =>
      rw [replayFrom_continued done unwon left] at h ⊢
      obtain ⟨s, hs, rfl⟩ := map_eq_ok.mp h
      rw [ih (GridRun.tiled_of_perform hw done) hs hsettled]
      rfl

namespace GridRun

/-- **What is settled does not depend on later blocks.**  From the start of a well-formed grid and
under any rules, if the run of a program ends with another verdict than that the program is over,
then with any blocks appended the run ends with the same verdict, events, trace, context and
world. -/
theorem runToEnd_append {g : Grid} (hg : g.WellFormed) (rules : Rules)
    (program later : List Action) :
    ∃ events r verdict, (start g rules program).runToEnd = .ok (events, r) ∧
      r.verdict = some verdict ∧
      (verdict ≠ .fail .incomplete →
        ∃ r', (start g rules (program ++ later)).runToEnd = .ok (events, r') ∧
          r'.verdict = some verdict ∧ r'.trace = r.trace ∧ r'.context = r.context ∧
          r'.world = r.world) := by
  obtain ⟨t, r, hreplay, hrun, hshows⟩ := exists_shows hg rules program
  refine ⟨t.events, r, t.verdict, hrun, hshows.verdict, fun hsettled => ?_⟩
  obtain ⟨t', r', hreplay', hrun', hshows'⟩ := exists_shows hg rules (program ++ later)
  obtain ⟨rest, hrest⟩ := expansionFrom_prefix_append 0 program later
  have hsame := replayFrom_append hg.tiled hreplay hsettled rest
  rw [replay, expansion, ← hrest] at hreplay'
  obtain rfl := Except.ok.inj (hsame.symm.trans hreplay')
  exact ⟨r', hrun', hshows'.verdict, hshows'.trace.trans hshows.trace.symm,
    hshows'.context.trans hshows.context.symm, hshows'.world.trans hshows.world.symm⟩

/-- Along a corridor of four cells, the fourth of five moves leads outside; the repeat block at the
end of the program gets a body that makes no difference. -/
theorem runToEnd_append_corridor : (Grid.filled 4 1 .path ⟨0, 0⟩ .right).WellFormed ∧
    ∃ events r r', (start (Grid.filled 4 1 .path ⟨0, 0⟩ .right) .maze
        [.repeatNext 5, .moveRight, .repeatNext 2]).runToEnd = .ok (events, r) ∧
      r.verdict = some (.fail (.offGrid ⟨4, 0⟩)) ∧
      (start (Grid.filled 4 1 .path ⟨0, 0⟩ .right) .maze
        [.repeatNext 5, .moveRight, .repeatNext 2, .moveLeft]).runToEnd = .ok (events, r') ∧
      r'.verdict = some (.fail (.offGrid ⟨4, 0⟩)) ∧ r'.trace = r.trace := by
  have hw : (Grid.filled 4 1 .path ⟨0, 0⟩ .right).WellFormed := by decide +kernel
  obtain ⟨events, r, verdict, hrun, hverdict, hsame⟩ :=
    runToEnd_append hw .maze [.repeatNext 5, .moveRight, .repeatNext 2] [.moveLeft]
  have hend : ((start (Grid.filled 4 1 .path ⟨0, 0⟩ .right) .maze
      [.repeatNext 5, .moveRight, .repeatNext 2]).runToEnd).map (·.2.verdict)
        = .ok (some (.fail (.offGrid ⟨4, 0⟩))) := by decide +kernel
  rw [hrun] at hend
  obtain rfl := Option.some.inj (hverdict.symm.trans (Except.ok.inj hend))
  obtain ⟨r', hrun', hverdict', htrace, -⟩ := hsame nofun
  exact ⟨hw, events, r, r', hrun, hverdict, hrun', hverdict', htrace⟩

end GridRun

end BlockCoding
