import BlockCoding.Proofs.Session.Pacing

/-!
# Proofs/Session/Rerun — a run does not know what went before it

The mazes and the ruins are literal worlds.  Whatever a session has been through, a session at such
a variant has that world for its template (`AtHome`), and a reset leaves nothing of earlier runs.
From there the play takes the steps of the plain grid run and ends as it does
(`Play.exists_ended`); so a program that is run again comes to what it would come to in a world
never entered (`rerun_replays`).
-/

namespace BlockCoding

/-! ## Literal worlds -/

namespace Variant

/-- **The variants with a literal world**, and their rules. -/
inductive Literal : Variant → Grid → Rules → Prop where
  | maze {levelId : String} {world : Grid} (built : (MazeLevel.ofId levelId).build = .ok world) :
      Literal (.maze levelId) world .maze
  | ruins : Literal .ruins Ruins.grid .ruins

/-- What is announced after the verdict: the win of a maze is celebrated. -/
def celebration : Variant → Verdict → List Event
  | .maze _, .win => [.celebrating]
  | _, _ => []

/-- Every maze, whatever its id, and the ruins have a literal world. -/
theorem exists_literal {variant : Variant}
    (h : (∃ levelId, variant = .maze levelId) ∨ variant = .ruins) :
    ∃ world rules, variant.Literal world rules ∧ world.WellFormed := by
  rcases h with ⟨levelId, rfl⟩ | rfl
  · obtain ⟨world, hbuild, hw⟩ := MazeLevel.exists_build levelId
    exact ⟨world, .maze, .maze hbuild, hw⟩
  · exact ⟨Ruins.grid, .ruins, .ruins, Ruins.wellFormed_grid⟩

namespace Literal

variable {variant : Variant} {world : Grid} {rules : Rules}

/-- A literal world is made without drawing anything. -/
theorem roll_eq (h : variant.Literal world rules) (source : Pcg) :
    Template.roll variant source = .ok (.grid world rules, source) := by
  cases h with
  | maze built => rw [Template.roll, built]; rfl
  | ruins => rfl

/-- It is not made anew on a reset. -/
theorem rerolls_eq (h : variant.Literal world rules) : Session.rerolls variant = false := by
  cases h <;> rfl

/-- Its rules say whether a win is celebrated. -/
theorem celebration_eq (h : variant.Literal world rules) (verdict : Verdict) :
    variant.celebration verdict
      = if rules.celebrate = true ∧ verdict = .win then [.celebrating] else [] := by
  cases h <;> cases verdict <;> rfl

end Literal

end Variant

/-! ## A play ends as its grid run does -/

/-- A step of a grid run, as the session sees it. -/
theorem ActiveRun.exists_tick {r r' : GridRun} {events : List Event}
    (h : r.step = .ok (events, r')) (source : Pcg) :
    ∃ t : Tick ActiveRun Pcg, (grid r).advance source = .ok t ∧ t.verdict = r'.verdict ∧
      t.events = events ∧ t.state = grid r' :=
  ⟨⟨r'.verdict, events, .grid r', source⟩, by rw [advance, h]; rfl, rfl, rfl, rfl⟩

namespace Play

/-- **How a play ends** whose grid run raises `events` and ends as `r`. -/
structure EndsAs (celebrates : Bool) (p : Play) (events : List Event) (r : GridRun)
    (verdict : Verdict) (q : Play) : Prop where
  isTerminal : q.state.isTerminal = true
  verdict_eq : q.verdict = some verdict
  run_eq : q.run = some (.grid r)
  events_eq : q.events = p.events ++ events ++
    if celebrates = true ∧ verdict = .win then [.celebrating] else []

variable {celebrates : Bool} {p q : Play} {events : List Event} {r r' : GridRun}
  {verdict : Verdict}

/-- What a step has raised comes before what is raised later. -/
theorem EndsAs.of_after {t : Tick ActiveRun Pcg}
    (h : (p.after t).EndsAs celebrates events r verdict q) :
    p.EndsAs celebrates (t.events ++ events) r verdict q where
  isTerminal := h.isTerminal
  verdict_eq := h.verdict_eq
  run_eq := h.run_eq
  events_eq := by rw [h.events_eq, after, List.append_assoc p.events]

/-- **A verdict ends the play**, one step later if it is celebrated. -/
theorem exists_concluded (hrun : p.run = some (.grid r)) (verdict : Verdict) :
    ∃ n ≤ 1, ∃ q, stepTimes celebrates n (p.conclude celebrates (.grid r) verdict).1 = .ok q ∧
      p.EndsAs celebrates [] r verdict q := by
  rcases verdict with _ | cause
  · rcases celebrates with _ | _
    · refine ⟨0, Nat.zero_le 1, _, rfl, ?_, ?_, ?_, ?_⟩
      · simp only [conclude, if_neg Bool.false_ne_true, state_enterWin]
        rfl
      · simp only [conclude, if_neg Bool.false_ne_true, verdict_enterWin]
      · simpa only [conclude, if_neg Bool.false_ne_true, run_enterWin] using hrun
      · simp [conclude, ActiveRun.announcement]
    -- the celebration is ended by a step of its own
    · refine ⟨1, Nat.le_refl 1, _, stepTimes_one (step_of_celebrating rfl true), ?_, ?_, ?_, ?_⟩
      · rw [state_enterWin]
        rfl
      · rw [verdict_enterWin]
        rfl
      · rw [run_enterWin]
        exact hrun
      · simp [conclude, ActiveRun.announcement]
  · refine ⟨0, Nat.zero_le 1, _, rfl, rfl, rfl, hrun, ?_⟩
    simp [conclude, ActiveRun.announcement]

/-- **A play ends as its grid run does**: if that comes to a verdict within `k` steps, the play
takes as many, and one more for a celebration, at most.  The induction is on the steps. -/
theorem exists_ended {k : Nat} (hstate : p.state = .running) (hrun : p.run = some (.grid r))
    (hnone : r.verdict = none) (hsteps : GridRun.steps k r = .ok (events, r'))
    (hverdict : r'.verdict = some verdict) :
    ∃ n ≤ k + 1, ∃ q, stepTimes celebrates n p = .ok q ∧
      p.EndsAs celebrates events r' verdict q := by
  induction k generalizing p r events with
  | zero =>
    obtain ⟨rfl, rfl⟩ := Prod.mk.inj (Except.ok.inj hsteps)
    rw [hnone] at hverdict
    cases hverdict
  | succ k ih =>
    rw [GridRun.steps] at hsteps
    obtain ⟨⟨now, r₁⟩, hstep, hsteps⟩ := bind_eq_ok.mp hsteps
    obtain ⟨t, hadvance, htick, rfl, hreached⟩ := ActiveRun.exists_tick hstep p.source
    have hplay := step_of_running hstate hrun hadvance celebrates
    have hrunning : (p.after t).state = .running := hstate
    have hcurrent : (p.after t).run = some (.grid r₁) := congrArg some hreached
    rw [htick] at hplay
    rcases hv : r₁.verdict with _ | v <;> simp only [hv] at hsteps hplay
    · obtain ⟨⟨later, r₂⟩, hlater, hsteps⟩ := bind_eq_ok.mp hsteps
      obtain ⟨rfl, rfl⟩ := Prod.mk.inj (Except.ok.inj hsteps)
      obtain ⟨n, hn, q, hq, hends⟩ := ih hrunning hcurrent hv hlater
      exact ⟨n + 1, Nat.succ_le_succ hn, q, by rw [stepTimes_succ hplay, hq], hends.of_after⟩
    · obtain ⟨rfl, rfl⟩ := Prod.mk.inj (Except.ok.inj hsteps)
      obtain rfl := Option.some.inj (hv.symm.trans hverdict)
      obtain ⟨n, hn, q, hq, hends⟩ := @exists_concluded celebrates (p.after t) r₁ hcurrent v
      rw [hreached] at hplay
      have hfirst : stepTimes celebrates (n + 1) p
          = stepTimes celebrates n ((p.after t).conclude celebrates (.grid r₁) v).1 :=
        stepTimes_succ hplay n
      have hends' := hends.of_after
      rw [List.append_nil] at hends'
      exact ⟨n + 1, by omega, q, hfirst.trans hq, hends'⟩

end Play

/-! ## At home -/

/-- A program with an action to execute has a block in it. -/
theorem Program.isEmpty_eq_false {p : Program} (h : p.actions ≠ []) : p.isEmpty = false := by
  rw [isEmpty, List.isEmpty_eq_false_iff]
  intro hempty
  rw [actions, hempty] at h
  exact h rfl

namespace Session

/-- **A session whose template is the literal world of its variant**, if that has one. -/
def AtHome (s : Session) : Prop :=
  ∀ world rules, s.variant.Literal world rules → s.template = .grid world rules

theorem variant_run (s : Session) : s.run.2.variant = s.variant := by
  rw [run]
  split <;> rfl

/-- A run leaves the template as it is. -/
theorem template_run (s : Session) : s.run.2.template = s.template := by
  rw [run]
  split <;> rfl

/-- A reset keeps the variant. -/
theorem variant_reset (s : Session) : s.reset.variant = s.variant := by
  obtain ⟨_, _, -, heq⟩ := s.exists_reset
  rw [heq]

/-- What is left by a reset where no world is made anew. -/
theorem reset_of_not_rerolls {s : Session} (h : rerolls s.variant = false) :
    s.reset = { s with
      program := s.program.setFrozen false
      pacer := s.pacer.cancel
      play := s.play.reset } := by
  rw [reset, if_neg]
  rw [Bool.not_eq_true]
  exact h

namespace AtHome

variable {s s' : Session}

theorem of_same (h : s.AtHome) (hvariant : s'.variant = s.variant)
    (htemplate : s'.template = s.template) : s'.AtHome := by
  intro world rules hliteral
  rw [htemplate]
  exact h world rules (hvariant ▸ hliteral)

theorem of_still (h : s.AtHome) (hs : s.Still s') : s'.AtHome :=
  h.of_same hs.variant_eq hs.template_eq

/-- A new world is the literal one. -/
theorem of_roll {source source' : Pcg}
    (h : Template.roll s.variant source = .ok (s.template, source')) : s.AtHome := by
  intro world rules hliteral
  rw [hliteral.roll_eq] at h
  exact (Prod.mk.inj (Except.ok.inj h)).1.symm

/-- **Every operation leaves a session at home.** -/
theorem of_perform (h : s.AtHome) {operation : Operation}
    (hs : s.perform operation = .ok s') : s'.AtHome := by
  cases operation with
  | append id =>
    obtain rfl := Except.ok.inj hs
    exact h.of_still (.append s id)
  | removeAt i =>
    obtain rfl := Except.ok.inj hs
    exact h.of_still (.removeAt s i)
  | clearProgram =>
    obtain rfl := Except.ok.inj hs
    exact h.of_still (.clearProgram s)
  | drainEvents =>
    obtain rfl := Except.ok.inj hs
    exact h.of_still (.drainEvents s)
  | run =>
    obtain rfl := Except.ok.inj hs
    exact h.of_same s.variant_run s.template_run
  | update dt =>
    obtain ⟨_, -, hs⟩ := bind_eq_ok.mp hs
    obtain rfl := Except.ok.inj hs
    exact h.of_same rfl rfl
  | reset =>
    obtain rfl := Except.ok.inj hs
    intro world rules hliteral
    rw [s.variant_reset] at hliteral
    rw [reset_of_not_rerolls hliteral.rerolls_eq]
    exact h world rules hliteral
  | load variant =>
    obtain ⟨loaded, hload, -⟩ := s.exists_load variant
    rw [perform, hload] at hs
    obtain rfl := Except.ok.inj hs
    obtain ⟨⟨template, source⟩, hroll, hload⟩ := bind_eq_ok.mp hload
    obtain rfl := Except.ok.inj hload
    exact of_roll hroll

/-- So does every sequence of operations. -/
theorem of_history (h : s.AtHome) {operations : List Operation}
    (hs : s.history operations = .ok s') : s'.AtHome :=
  history_induction (fun h ht => h.of_perform ht) h hs

end AtHome

/-- A new session is at home. -/
theorem atHome_of_create {variant : Variant} {settings : Settings} {seed : Seed} {s : Session}
    (h : create variant settings seed = .ok s) : s.AtHome := by
  obtain ⟨⟨template, source⟩, hroll, h⟩ := bind_eq_ok.mp h
  obtain rfl := Except.ok.inj h
  exact .of_roll hroll

/-! ## A program that is run again -/

section Rerun

variable {s : Session} {world : Grid} {rules : Rules}

/-- **Resetting and running starts the plain run**: nothing is left of what went before but the
events that nobody has taken. -/
theorem AtHome.run_reset (h : s.AtHome) (hliteral : s.variant.Literal world rules)
    (hblock : s.program.actions ≠ []) :
    s.reset.run = (true, { s with
      program := (s.program.setFrozen false).setFrozen true
      play := s.play.reset.launch (.grid (.start world rules s.program.actions))
      pacer := s.pacer.cancel.start }) := by
  have hreset := reset_of_not_rerolls hliteral.rerolls_eq
  have hidle : s.reset.state = .idle := by
    rw [hreset]
    rfl
  have hready : s.reset.program.isEmpty = false := by
    rw [hreset]
    exact Program.isEmpty_eq_false hblock
  rw [run_of_idle hidle hready, hreset]
  dsimp only
  rw [h world rules hliteral]
  rfl

/-- A program that is run again in a literal world: its plain run ends, and with two steps more
than it has actions, at most, the play ends as that does. -/
theorem AtHome.exists_ended (h : s.AtHome) (hliteral : s.variant.Literal world rules)
    (hw : world.WellFormed) (hblock : s.program.actions ≠ []) :
    ∃ events r verdict q, (GridRun.start world rules s.program.actions).runToEnd
        = .ok (events, r) ∧ r.verdict = some verdict ∧
      s.reset.run.2.play.stepTimes rules.celebrate ((expansion s.program.actions).length + 2)
        = .ok q ∧
      s.reset.run.2.play.EndsAs rules.celebrate events r verdict q := by
  obtain ⟨t, r, -, hrun, hshows⟩ := GridRun.exists_shows hw rules s.program.actions
  rw [h.run_reset hliteral hblock]
  obtain ⟨n, hn, q, hq, hends⟩ := Play.exists_ended
    (p := s.play.reset.launch (.grid (.start world rules s.program.actions)))
    rfl rfl rfl hrun hshows.verdict
  exact ⟨t.events, r, t.verdict, q, hrun, hshows.verdict,
    Play.stepTimes_of_le hn hq hends.isTerminal, hends⟩

/-- **Whatever times a session is fed after a reset and a run**, its template stays, every moment is
some timeless steps after the start, and every end is the one that these steps come to. -/
theorem AtHome.exists_rerun (h : s.AtHome) (hs : s.Consistent)
    (hliteral : s.variant.Literal world rules) (hblock : s.program.actions ≠ []) {k : Nat}
    {q : Play} (hq : s.reset.run.2.play.stepTimes rules.celebrate k = .ok q)
    (hend : q.state.isTerminal = true) (dts : List Float32) :
    ∃ path, s.reset.run.2.chronicle (dts.map .update) = .ok path ∧
      s.history (.reset :: .run :: dts.map .update) = .ok (path.getLastD s.reset.run.2) ∧
      ∀ f ∈ s.reset.run.2 :: path, f.template = s.template ∧
        (∃ n, s.reset.run.2.play.stepTimes rules.celebrate n = .ok f.play) ∧
        (f.state.isTerminal = true → f.play = q) := by
  have hsame : s.reset.run.2.template = s.template := by rw [h.run_reset hliteral hblock]
  obtain ⟨path, hpath, hlast, hpaced⟩ :=
    ((hs.of_passes hs.passes_reset).of_passes (passes_run _)).exists_paced dts
  refine ⟨path, hpath, by rw [history_cons rfl, history_cons rfl, hlast], ?_⟩
  intro f hf
  obtain ⟨n, hn⟩ := hpaced f hf
  have hsteps := hn.steps
  rw [hsame, h world rules hliteral] at hsteps
  refine ⟨hn.template_eq.trans hsame, ⟨n, hsteps⟩, ?_⟩
  intro hterminal
  exact Play.eq_of_isTerminal hq hsteps hend hterminal

end Rerun

/-- **A program that is run again comes to what it comes to in a world never entered.**  Whatever
has happened to a session, no run changes its template.  If it is then at a maze or in the ruins,
with a block in its program, a reset and a run start the plain run of that program in the literal
world; and whatever times are fed from there, the session is at every moment some timeless steps
further, of which two more than there are actions are enough to end it, and it ends as the plain
run does: with its verdict, its trace, context and world, and its events, after which the win of a
maze is celebrated. -/
theorem rerun_replays (variant : Variant) (settings : Settings) (seed : Seed)
    (operations : List Operation) :
    ∃ s m, create variant settings seed = .ok s ∧ s.history operations = .ok m ∧
      m.run.2.template = m.template ∧
      (∀ dt, ∃ now, m.moments (.update dt) = .ok now ∧ ∀ q ∈ now, q.template = m.template) ∧
      ((∃ levelId, m.variant = .maze levelId) ∨ m.variant = .ruins → m.program.actions ≠ [] →
        ∃ world rules events r verdict, m.variant.Literal world rules ∧
          m.template = .grid world rules ∧
          (GridRun.start world rules m.program.actions).runToEnd = .ok (events, r) ∧
          r.verdict = some verdict ∧ m.reset.run.1 = true ∧
          (∃ q, m.reset.run.2.play.stepTimes rules.celebrate
            ((expansion m.program.actions).length + 2) = .ok q ∧ q.state.isTerminal = true) ∧
          ∀ dts : List Float32, ∃ path, m.reset.run.2.chronicle (dts.map .update) = .ok path ∧
            m.history (.reset :: .run :: dts.map .update)
              = .ok (path.getLastD m.reset.run.2) ∧
            ∀ f ∈ m.reset.run.2 :: path, f.template = m.template ∧
              (∃ n, m.reset.run.2.play.stepTimes rules.celebrate n = .ok f.play) ∧
              (f.state.isTerminal = true → f.verdict = some verdict ∧
                f.play.run = some (.grid r) ∧
                f.play.events = m.play.events ++ events ++ m.variant.celebration verdict)) := by
  obtain ⟨s, hcreate, -, -, hnew⟩ := exists_create variant settings seed
  obtain ⟨_, -, -, hhistory⟩ := hnew.exists_chronicle operations
  generalize List.getLastD _ _ = m at hhistory
  have hconsistent := hnew.of_history hhistory
  have hhome := (atHome_of_create hcreate).of_history hhistory
  refine ⟨s, m, hcreate, hhistory, m.template_run, ?_, ?_⟩
  · intro dt
    obtain ⟨now, hnow, -⟩ := hconsistent.exists_moments (.update dt)
    refine ⟨now, hnow, fun q hq => ?_⟩
    obtain ⟨n, hn⟩ := exists_paced_of_moments hnow q hq
    exact hn.template_eq
  · intro hvariant hblock
    obtain ⟨world, rules, hliteral, hw⟩ := Variant.exists_literal hvariant
    obtain ⟨events, r, verdict, q, hplain, hverdict, hq, hends⟩ :=
      hhome.exists_ended hliteral hw hblock
    have hstart := hhome.run_reset hliteral hblock
    have hyes : m.reset.run.1 = true := by rw [hstart]
    have hevents : m.reset.run.2.play.events = m.play.events := by
      rw [hstart]
      rfl
    refine ⟨world, rules, events, r, verdict, hliteral, hhome world rules hliteral, hplain,
      hverdict, hyes, ⟨q, hq, hends.isTerminal⟩, fun dts => ?_⟩
    obtain ⟨path, hpath, hlast, hmoments⟩ :=
      hhome.exists_rerun hconsistent hliteral hblock hq hends.isTerminal dts
    refine ⟨path, hpath, hlast, fun f hf => ?_⟩
    obtain ⟨htemplate, hsteps, hended⟩ := hmoments f hf
    refine ⟨htemplate, hsteps, fun hterminal => ?_⟩
    rw [Session.verdict, hended hterminal, hliteral.celebration_eq, ← hevents]
    exact ⟨hends.verdict_eq, hends.run_eq, hends.events_eq⟩

/-- The first level, won with both of its collectibles after a run that took one of them and
failed. -/
theorem rerun_replays_first :
    ∃ s m f world events r,
      create (.maze "lvl1") .undelayed ⟨7⟩ = .ok s ∧
      s.history [.append "b1", .append "b1", .run, .update 0.1, .reset, .append "b1",
        .append "b1"] = .ok m ∧
      m.history (.reset :: .run :: [0.1].map .update) = .ok f ∧
      MazeLevel.first.build = .ok world ∧
      (GridRun.start world .maze m.program.actions).runToEnd = .ok (events, r) ∧
      f.verdict = some .win ∧ f.play.run = some (.grid r) ∧ r.context.collected.size = 2 ∧
      f.play.events = m.play.events ++ events ++ [.celebrating] := by
  obtain ⟨s, m, hcreate, hhistory, -, -, hrerun⟩ := rerun_replays (.maze "lvl1") .undelayed ⟨7⟩
    [.append "b1", .append "b1", .run, .update 0.1, .reset, .append "b1", .append "b1"]
  have hthere : (create (.maze "lvl1") .undelayed ⟨7⟩).map (fun s =>
      (s.history [.append "b1", .append "b1", .run, .update 0.1, .reset, .append "b1",
        .append "b1"]).map fun m => (m.variant, m.program.actions))
        = .ok (.ok (.maze "lvl1", List.replicate 4 .moveRight)) := by decide +kernel
  have hend : (create (.maze "lvl1") .undelayed ⟨7⟩).map (fun s =>
      (s.history ([.append "b1", .append "b1", .run, .update 0.1, .reset, .append "b1",
        .append "b1"] ++ .reset :: .run :: [0.1].map .update)).map fun f =>
      (f.state, f.verdict, f.play.run.map ActiveRun.collected))
        = .ok (.ok (.win, some .win, some 2)) := by decide +kernel
  rw [hcreate] at hthere hend
  obtain ⟨m', hm', hlevel⟩ := map_eq_ok.mp (Except.ok.inj hthere)
  obtain ⟨f, hf, hwin⟩ := map_eq_ok.mp (Except.ok.inj hend)
  obtain rfl := Except.ok.inj (hhistory.symm.trans hm')
  obtain ⟨hvariant, hactions⟩ := Prod.mk.inj hlevel
  obtain ⟨hstate, hwin⟩ := Prod.mk.inj hwin
  obtain ⟨hfinal, hsize⟩ := Prod.mk.inj hwin
  rw [history_append hhistory] at hf
  obtain ⟨world, rules, events, r, verdict, hliteral, -, hplain, -, -, -, hruns⟩ :=
    hrerun (.inl ⟨"lvl1", hvariant⟩) (by rw [hactions]; decide)
  obtain ⟨path, -, hlast, hmoments⟩ := hruns [0.1]
  obtain rfl := Except.ok.inj (hlast.symm.trans hf)
  obtain ⟨-, -, hended⟩ := hmoments _ List.getLastD_mem_cons
  obtain ⟨hsame, hrun, hevents⟩ := hended (by rw [hstate]; rfl)
  obtain rfl := Option.some.inj (hsame.symm.trans hfinal)
  rw [hvariant] at hliteral hevents
  rw [hrun] at hsize
  obtain ⟨built⟩ := hliteral
  exact ⟨s, m, _, world, events, r, hcreate, hhistory, hlast, built, hplain, hfinal, hrun,
    Option.some.inj hsize, hevents⟩

end Session

end BlockCoding
