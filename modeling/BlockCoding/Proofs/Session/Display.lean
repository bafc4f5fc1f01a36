import BlockCoding.Proofs.Session.Launch
import BlockCoding.Proofs.Session.Raising
import BlockCoding.Proofs.Stage.Band
import BlockCoding.Proofs.Stage.Harvest

/-!
# Proofs/Session/Display — the program on display is the program that runs

Whatever a run takes up next is asked for by a block of its program (`Coherent.asksFor`): the block
itself, or the repeat block in front of it.  A run keeps the program that it was launched with
(`AdvancesTo.isOf`), and the session keeps that one on display as long as the run goes on
(`GoesOn.plays`).  So the block that is announced is found on display (`program_on_display`).
-/

namespace BlockCoding

/-! ## A run keeps its program -/

namespace ActiveRun

/-- **A run of a program**: a grid run has its actions, and a stage is configured by it. -/
def IsOf (program : Program) : ActiveRun → Prop
  | .grid r => r.program = program.actions
  | .flight f => f.behaviors = .ofProgram program
  | .orchard o => o.behaviors = .ofProgram program

/-- A run that is launched is of its program. -/
theorem isOf_launch (template : Template) (program : Program) :
    (launch template program).IsOf program := by
  cases template with
  | grid | sky | orchard => rfl

/-- **A run that advances stays of its program.** -/
theorem AdvancesTo.isOf {program : Program} {run : ActiveRun} {source : Pcg}
    {t : Tick ActiveRun Pcg} (h : run.AdvancesTo source t) (hof : run.IsOf program) :
    t.state.IsOf program := by
  cases h with
  | grid source sound ongoing step stepped => exact stepped.program_eq.trans hof
  | flight f source => exact (f.speed_tick source).2.trans hof
  | orchard o source => exact (o.gathers_tick source).behaviors_eq.trans hof

end ActiveRun

namespace Session

variable {s s' : Session}

/-- **The session has a run, and it is of the program on display.** -/
def Plays (s : Session) : Prop := ∃ run, s.play.run = some run ∧ run.IsOf s.program

/-- A run that is taken is of the program on display. -/
theorem plays_of_taken (h : s.run.1 = true) : s.run.2.Plays := by
  rw [run_of_taken h]
  refine ⟨_, rfl, ?_⟩
  have hlaunch := ActiveRun.isOf_launch s.template s.program
  generalize ActiveRun.launch s.template s.program = run at hlaunch
  cases run with
  | grid | flight | orchard => exact hlaunch

/-- **As long as the run goes on, it is of the program on display.** -/
theorem GoesOn.plays (h : s.GoesOn s') (hs : s.Consistent) (hplays : s.Plays) : s'.Plays := by
  obtain ⟨run, hrun, hof⟩ := hplays
  rw [← h.program_eq] at hof
  have hnot := h.not_idle
  have hnot' := h.not_idle'
  have hstepped : ∀ {t}, s.state = .running → run.advance s.play.source = .ok t →
      t.state.IsOf s'.program := by
    intro t running tick
    obtain ⟨hfits, hnone⟩ := hs.under_way running hrun
    exact (hfits.advancesTo hnone tick).isOf hof
  cases h.passes with
  | still same => exact ⟨run, same.run_eq.trans hrun, hof⟩
  | launched idle => exact absurd idle hnot
  | returned => exact absurd rfl hnot'
  | advanced running current tick =>
    obtain rfl := Option.some.inj (hrun.symm.trans current)
    exact ⟨_, rfl, hstepped running tick⟩
  | concluded running current tick =>
    obtain rfl := Option.some.inj (hrun.symm.trans current)
    exact ⟨_, Play.run_conclude _ _ _ _, hstepped running tick⟩
  | declared => exact ⟨run, (Play.run_enterWin _).trans hrun, hof⟩

/-- So it is throughout. -/
theorem Consistent.plays_of_goesOn (h : s.Consistent) (hplays : s.Plays) {path : List Session}
    (hpath : (s :: path).IsChain GoesOn) : ∀ m ∈ s :: path, m.Plays := by
  have hall : ∀ m ∈ s :: path, m.Consistent ∧ m.Plays := by
    refine hpath.induction _ (s :: path) (fun a b hab ha => ?_) fun _ => ⟨h, hplays⟩
    exact ⟨ha.1.of_passes hab.passes, hab.plays ha.1 ha.2⟩
  exact fun m hm => (hall m hm).2

/-! ## The block that is announced -/

/-- **A block is executed from one moment to the next**: the grid run of the session takes the step
that announces it, and executes an action for which this block of the program asks. -/
structure ExecutesBlock (program : Program) (index : Nat) (s s' : Session) : Prop where
  lt : index < program.size
  step : ∃ r events r' action, s.play.run = some (.grid r) ∧ r.step = .ok (events, r') ∧
    s'.play.run = some (.grid r') ∧ .executing index ∈ events ∧ r.Executes action events r' ∧
    AsksFor program.actions index action

/-- A passage that announces a block is a step of the run under way. -/
theorem Passes.exists_tick (h : s.Passes s') {index : Nat}
    (hmem : .executing index ∈ s.raised s') :
    s.state = .running ∧ ∃ run t, s.play.run = some run ∧ run.advance s.play.source = .ok t ∧
      s'.play.run = some t.state ∧ .executing index ∈ t.events := by
  have hrunning : s.state = .running := by
    by_contra hnot
    rw [h.raised_eq_nil hnot] at hmem
    exact absurd hmem List.not_mem_nil
  refine ⟨hrunning, ?_⟩
  cases h with
  | still same =>
    rw [same.raised_eq] at hmem
    exact absurd hmem List.not_mem_nil
  | launched idle => exact absurd (hrunning.symm.trans idle) nofun
  | declared celebrating => exact absurd (hrunning.symm.trans celebrating) nofun
  | returned => simp [raised, Play.reset] at hmem
  | @advanced run t pacer running current tick =>
    rw [@raised_of_events s _ t.events rfl] at hmem
    exact ⟨run, t, current, tick, rfl, hmem⟩
  | @concluded run t verdict pacer running current tick =>
    rw [raised_of_concluded rfl] at hmem
    refine ⟨run, t, current, tick, Play.run_conclude _ _ _ _, ?_⟩
    rcases List.mem_append.mp hmem with hmem | hmem
    · exact hmem
    · rcases List.mem_append.mp hmem with hmem | hmem
      · cases ActiveRun.eq_of_mem_announcement hmem
      · split at hmem
        · cases List.mem_singleton.mp hmem
        · exact absurd hmem List.not_mem_nil

/-- **The block that is announced is on display**, and asks for what is executed. -/
theorem Passes.executesBlock (h : s.Passes s') (hs : s.Consistent) {program : Program}
    (hplays : s.state ≠ .idle → s.Plays ∧ s.program = program) {index : Nat}
    (hmem : .executing index ∈ s.raised s') : ExecutesBlock program index s s' := by
  obtain ⟨running, run, t, hrun, tick, hrun', hmem⟩ := h.exists_tick hmem
  obtain ⟨⟨run', hrun'', hof⟩, rfl⟩ := hplays (by rw [running]; nofun)
  obtain rfl := Option.some.inj (hrun.symm.trans hrun'')
  obtain ⟨hfits, hnone⟩ := hs.under_way running hrun
  cases hfits.advancesTo hnone tick with
  | @grid r r' events source sound ongoing step stepped =>
    obtain ⟨action, hexecutes, hasks⟩ := stepped.asksFor sound ongoing hmem
    have hprogram : r.program = s.program.actions := hof
    rw [hprogram] at hasks
    refine ⟨?_, r, events, r', action, hrun, step, hrun', hmem, hexecutes, hasks⟩
    exact hasks.lt.trans_eq (List.length_map _)
  -- the frames of a stage execute no block
  | flight f => cases List.all_eq_true.mp (f.occurs_tick s.play.source) _ hmem
  | orchard o => cases List.all_eq_true.mp (o.occurs_tick s.play.source) _ hmem

/-- Whatever happens to a session with a run, that run is of the program on display until it is
given up. -/
theorem Consistent.plays_of_moments (h : s.Consistent) (hs : s.state ≠ .idle) (hplays : s.Plays)
    {operation : Operation} {now : List Session} (hnow : s.moments operation = .ok now) :
    ∀ m ∈ s :: now, m.state ≠ .idle → m.Plays ∧ m.program = s.program := by
  intro m hm hnot
  rcases hop : operation.returns with _ | _
  · have hchain := h.goesOn_of_moments hs hop hnow
    exact ⟨h.plays_of_goesOn hplays hchain m hm, (h.of_goesOn hs hchain m hm).2.2⟩
  · rcases List.mem_cons.mp hm with rfl | hm
    · exact ⟨hplays, rfl⟩
    -- what is given up is idle at once
    · cases operation with
      | reset | load =>
        obtain ⟨next, hnext, hnow⟩ := bind_eq_ok.mp hnow
        obtain rfl := Except.ok.inj hnow
        obtain rfl := List.mem_singleton.mp hm
        exact absurd (state_of_returns rfl hnext) hnot
      | append | removeAt | clearProgram | run | update | drainEvents => cases hop

/-- **The program on display is the program that runs.**  Whatever the variant, the settings and the
operations, if they lead to a session that is not idle, there is among them a last run that was
taken, with no reset and no load after it; the program has the actions that it had when that run was
launched with it, and the run there is now is of this program.  The session refuses every edit and
every further run, and stays as it is.  Whatever happens to it next, a block that is announced is
one of the program, and the step that announces it executes an action for which that block asks. -/
theorem program_on_display (variant : Variant) (settings : Settings) (seed : Seed)
    (operations : List Operation) :
    ∃ s q, create variant settings seed = .ok s ∧ s.history operations = .ok q ∧
      (q.state ≠ .idle →
        (∃ before after m run, operations = before ++ .run :: after ∧
          (∀ op ∈ after, op.returns = false) ∧ s.history before = .ok m ∧ m.run.1 = true ∧
          m.run.2.play.run = some (.launch m.template m.program) ∧
          m.run.2.history after = .ok q ∧ q.program.actions = m.program.actions ∧
          q.play.run = some run ∧ run.IsOf q.program) ∧
        (∀ id, q.append id = (none, q)) ∧ (∀ i, q.removeAt i = (none, q)) ∧
        q.clearProgram = q ∧ q.run = (false, q) ∧
        ∀ operation, ∃ now, q.moments operation = .ok now ∧
          (q :: now).IsChain fun a b => ∀ index, .executing index ∈ a.raised b →
            ExecutesBlock q.program index a b) := by
  obtain ⟨s, hcreate, hidle, -, hnew⟩ := exists_create variant settings seed
  obtain ⟨_, -, -, hhistory⟩ := hnew.exists_chronicle operations
  generalize List.getLastD _ _ = q at hhistory
  refine ⟨s, q, hcreate, hhistory, fun hnot => ?_⟩
  have hq := hnew.of_history hhistory
  have hfrozen := hq.frozen hnot
  obtain ⟨before, after, m, hsplit, hafter, hm, htaken, hlast⟩ :=
    hnew.exists_launch hidle hhistory hnot
  have hlaunched := run_of_taken htaken
  have hconsistent := (hnew.of_history hm).of_passes m.passes_run
  have hbusy : m.run.2.state ≠ .idle := by
    rw [hlaunched]
    nofun
  obtain ⟨path, hpath, -, hend⟩ := hconsistent.exists_chronicle after
  obtain rfl := Except.ok.inj (hend.symm.trans hlast)
  have hchain := hconsistent.goesOn_of_chronicle hbusy hafter hpath
  have hplays := hconsistent.plays_of_goesOn (plays_of_taken htaken) hchain _
    List.getLastD_mem_cons
  obtain ⟨-, -, hprogram⟩ := hconsistent.of_goesOn hbusy hchain _ List.getLastD_mem_cons
  obtain ⟨run, hrun, hof⟩ := hplays
  refine ⟨⟨before, after, m, run, hsplit, hafter, hm, htaken, ?_, hlast, ?_, hrun, hof⟩,
    append_of_frozen hfrozen, removeAt_of_frozen hfrozen, clearProgram_of_frozen hfrozen,
    run_of_not_idle hnot, fun operation => ?_⟩
  · rw [hlaunched]
    rfl
  · rw [hprogram, hlaunched]
    rfl
  · obtain ⟨now, hnow, hpasses⟩ := hq.exists_moments operation
    refine ⟨now, hnow, hpasses.imp_of_mem_imp fun a b ha _ hab index hmem => ?_⟩
    exact hab.executesBlock (hq.of_isChain hpasses a ha)
      (hq.plays_of_moments hnot ⟨run, hrun, hof⟩ hnow a ha) hmem

end Session

end BlockCoding
