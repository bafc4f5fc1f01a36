import BlockCoding.Proofs.Session.Lifecycle

/-!
# Proofs/Session/Pacing — time decides when, never what

A session takes the steps of its run when they come due, and what comes due depends on the settings
and on the time that is fed.  What a step does depends on neither: `Play.stepTimes` takes steps and
knows no time, and every moment of a session that is only fed time is some number of steps after
its start (`Session.Paced`).  A play that has ended stays as it is, so two sessions with the same
play at the start and an end each have the same play in the end (`Play.eq_of_isTerminal`), however
they are paced (`outcome_independent_of_pacing`).
-/

namespace BlockCoding

/-- Settings that differ in nothing but timing. -/
def Settings.SameButTiming (settings settings' : Settings) : Prop :=
  settings' = { settings with
    stepDelays := settings'.stepDelays
    scanDelay := settings'.scanDelay
    celebrateDwell := settings'.celebrateDwell
    frameInterval := settings'.frameInterval
    maxStepsPerUpdate := settings'.maxStepsPerUpdate }

/-- The standard settings, but grid runs are shown as fast as time is fed. -/
def Settings.undelayed : Settings :=
  { Settings.standard with stepDelays := ⟨0, 0, 0⟩, celebrateDwell := 0 }

/-! ## Steps without time -/

namespace Play

/-- **The play after `n` steps.** -/
def stepTimes (celebrates : Bool) : Nat → Play → Except Fault Play
  | 0, p => pure p
  | n + 1, p => do
    let (p, _) ← p.step celebrates
    stepTimes celebrates n p

variable {celebrates : Bool} {p q q' : Play}

theorem stepTimes_succ {pace : Pace} (h : p.step celebrates = .ok (q, pace)) (n : Nat) :
    stepTimes celebrates (n + 1) p = stepTimes celebrates n q := by
  rw [stepTimes, h]
  rfl

theorem stepTimes_one {pace : Pace} (h : p.step celebrates = .ok (q, pace)) :
    stepTimes celebrates 1 p = .ok q := stepTimes_succ h 0

/-- Some steps, and the others after them. -/
theorem stepTimes_add {m : Nat} (h : stepTimes celebrates m p = .ok q) (n : Nat) :
    stepTimes celebrates (m + n) p = stepTimes celebrates n q := by
  induction m generalizing p with
  | zero =>
    obtain rfl := Except.ok.inj h
    rw [Nat.zero_add]
  | succ m ih =>
    rw [stepTimes] at h
    obtain ⟨⟨next, pace⟩, hstep, h⟩ := bind_eq_ok.mp h
    rw [Nat.succ_add, stepTimes_succ hstep, ih h]

/-- A play that has ended takes no step. -/
theorem step_of_isTerminal (h : p.state.isTerminal = true) :
    p.step celebrates = .ok (p, .halt) := by
  rw [step]
  rcases hstate : p.state with _ | _ | _ | _ | _ <;> rw [hstate] at h
  · cases h
  · cases h
  · cases h
  · rfl
  · rfl

theorem stepTimes_of_isTerminal (h : p.state.isTerminal = true) (n : Nat) :
    stepTimes celebrates n p = .ok p := by
  induction n with
  | zero => rfl
  | succ n ih => rw [stepTimes_succ (step_of_isTerminal h), ih]

/-- Once a play has ended, further steps change nothing. -/
theorem stepTimes_of_le {m n : Nat} (hmn : m ≤ n) (hm : stepTimes celebrates m p = .ok q)
    (hq : q.state.isTerminal = true) : stepTimes celebrates n p = .ok q := by
  obtain ⟨k, rfl⟩ := Nat.exists_eq_add_of_le hmn
  rw [stepTimes_add hm, stepTimes_of_isTerminal hq]

/-- **A play has one end**, after however many steps it is looked at. -/
theorem eq_of_isTerminal {m n : Nat} (hm : stepTimes celebrates m p = .ok q)
    (hn : stepTimes celebrates n p = .ok q') (hq : q.state.isTerminal = true)
    (hq' : q'.state.isTerminal = true) : q' = q := by
  rcases Nat.le_total m n with hmn | hnm
  · exact Except.ok.inj (hn.symm.trans (stepTimes_of_le hmn hm hq))
  · exact Except.ok.inj ((stepTimes_of_le hnm hn hq').symm.trans hm)

end Play

/-! ## Every moment is some steps after the start -/

namespace Session

/-- **The session some steps later**: the same session but for its play, which is `n` steps
further, and for its clock. -/
structure Paced (s : Session) (n : Nat) (m : Session) : Prop where
  same : m = { s with play := m.play, pacer := m.pacer }
  steps : s.play.stepTimes s.template.celebrates n = .ok m.play

namespace Paced

variable {s m : Session} {k n : Nat}

theorem of_pacer (s : Session) (pacer : Pacer) : s.Paced 0 { s with pacer } := ⟨rfl, rfl⟩

theorem refl (s : Session) : s.Paced 0 s := of_pacer s s.pacer

theorem template_eq (h : s.Paced n m) : m.template = s.template := by rw [h.same]

theorem trans {q : Session} (h : s.Paced k m) (h' : m.Paced n q) : s.Paced (k + n) q where
  same := by
    have hm := h.same
    have hq := h'.same
    rw [hm] at hq
    exact hq
  steps := by
    rw [Play.stepTimes_add h.steps, ← h.template_eq]
    exact h'.steps

/-- A step that comes due is one step of the play. -/
theorem of_stepDue {pacer pacer' : Pacer} {play : Play}
    (h : stepDue s.settings s.template.celebrates pacer s.play = .ok (pacer', play)) :
    s.Paced 1 { s with pacer := pacer', play } := by
  obtain ⟨⟨next, pace⟩, hstep, h⟩ := bind_eq_ok.mp h
  obtain ⟨-, rfl⟩ := Prod.mk.inj (Except.ok.inj h)
  exact ⟨rfl, Play.stepTimes_one hstep⟩

end Paced

variable {s : Session}

/-- **Every moment of a delivery is some steps after its start.**  The induction is on the number
of steps allowed. -/
theorem exists_paced_of_deliveries {n : Nat} {later : List Session}
    (h : s.deliveries n = .ok later) : ∀ m ∈ later, ∃ k, s.Paced k m := by
  induction n generalizing s later with
  | zero =>
    obtain rfl := Except.ok.inj h
    intro m hm
    obtain rfl := List.mem_singleton.mp hm
    exact ⟨0, .of_pacer s _⟩
  | succ n ih =>
    rw [deliveries] at h
    rcases hdue : s.pacer.nextDue with ⟨_ | _, pacer⟩ <;> rw [hdue] at h
    · obtain rfl := Except.ok.inj h
      intro m hm
      obtain rfl := List.mem_singleton.mp hm
      exact ⟨0, .of_pacer s pacer⟩
    · obtain ⟨⟨pacer', play⟩, hstep, h⟩ := bind_eq_ok.mp h
      obtain ⟨rest, hrest, h⟩ := bind_eq_ok.mp h
      obtain rfl := Except.ok.inj h
      intro m hm
      rcases List.mem_cons.mp hm with rfl | hm
      · exact ⟨1, .of_stepDue hstep⟩
      · obtain ⟨k, hk⟩ := ih hrest m hm
        exact ⟨1 + k, (Paced.of_stepDue hstep).trans hk⟩

/-- **Every moment of a feeding of time is some steps after its start.** -/
theorem exists_paced_of_moments {dt : Float32} {now : List Session}
    (h : s.moments (.update dt) = .ok now) : ∀ m ∈ now, ∃ k, s.Paced k m := by
  obtain ⟨later, hlater, h⟩ := bind_eq_ok.mp h
  obtain rfl := Except.ok.inj h
  have hfeed : s.Paced 0 (s.feed dt) := .of_pacer s _
  intro m hm
  rcases List.mem_cons.mp hm with rfl | hm
  · exact ⟨0, hfeed⟩
  · obtain ⟨k, hk⟩ := exists_paced_of_deliveries hlater m hm
    exact ⟨0 + k, hfeed.trans hk⟩

/-- **Every moment of a session that is only fed time is some steps after its start.**  The
induction is on the feedings. -/
theorem exists_paced_of_chronicle {dts : List Float32} {path : List Session}
    (h : s.chronicle (dts.map .update) = .ok path) : ∀ m ∈ s :: path, ∃ k, s.Paced k m := by
  induction dts generalizing s path with
  | nil =>
    obtain rfl := Except.ok.inj h
    intro m hm
    obtain rfl := List.mem_singleton.mp hm
    exact ⟨0, .refl m⟩
  | cons dt dts ih =>
    obtain ⟨now, hnow, h⟩ := bind_eq_ok.mp h
    obtain ⟨later, hlater, h⟩ := bind_eq_ok.mp h
    obtain rfl := Except.ok.inj h
    have hmoments : ∀ m ∈ s :: now, ∃ k, s.Paced k m := by
      intro m hm
      rcases List.mem_cons.mp hm with rfl | hm
      · exact ⟨0, .refl m⟩
      · exact exists_paced_of_moments hnow m hm
    intro m hm
    rw [← List.cons_append, List.mem_append] at hm
    rcases hm with hm | hm
    · exact hmoments m hm
    · obtain ⟨k, hk⟩ := hmoments _ List.getLastD_mem_cons
      obtain ⟨n, hn⟩ := ih hlater m (List.mem_cons_of_mem _ hm)
      exact ⟨k + n, hk.trans hn⟩

/-- A consistent session can be fed any times, and every moment is some steps after its start. -/
theorem Consistent.exists_paced (h : s.Consistent) (dts : List Float32) :
    ∃ path, s.chronicle (dts.map .update) = .ok path ∧
      s.history (dts.map .update) = .ok (path.getLastD s) ∧ ∀ m ∈ s :: path, ∃ k, s.Paced k m := by
  obtain ⟨path, hpath, -, hhistory⟩ := h.exists_chronicle (dts.map .update)
  exact ⟨path, hpath, hhistory, exists_paced_of_chronicle hpath⟩

/-! ## One program under two settings -/

/-- Whether an operation edits the program. -/
def Operation.isEdit : Operation → Bool
  | .append _ | .removeAt _ | .clearProgram => true
  | _ => false

/-- **An edit looks neither at the settings nor at the clock**, and it changes only the program. -/
theorem exists_program_of_isEdit {edit : Operation} (hedit : edit.isEdit = true) (s : Session) :
    ∃ program, ∀ settings pacer, perform { s with settings, pacer } edit
      = .ok { s with settings, pacer, program } := by
  cases edit with
  | append id =>
    refine ⟨(s.append id).2.program, fun settings pacer => ?_⟩
    simp only [perform, Session.append]
    split
    · rfl
    · split <;> rfl
  | removeAt i => exact ⟨(s.program.removeAt i).2, fun _ _ => rfl⟩
  | clearProgram => exact ⟨s.program.clear, fun _ _ => rfl⟩
  | run | update | reset | load | drainEvents => cases hedit

/-- So do several edits. -/
theorem exists_program_of_edits {edits : List Operation}
    (hedits : ∀ edit ∈ edits, edit.isEdit = true) (s : Session) :
    ∃ program, ∀ settings pacer, history { s with settings, pacer } edits
      = .ok { s with settings, pacer, program } := by
  induction edits generalizing s with
  | nil => exact ⟨s.program, fun _ _ => rfl⟩
  | cons edit edits ih =>
    obtain ⟨program, hfirst⟩ := exists_program_of_isEdit (hedits edit List.mem_cons_self) s
    obtain ⟨program', hrest⟩ :=
      ih (fun e he => hedits e (List.mem_cons_of_mem _ he)) { s with program }
    refine ⟨program', fun settings pacer => ?_⟩
    rw [history_cons (hfirst settings pacer)]
    exact hrest settings pacer

/-- An idle session with a block in its program takes a run. -/
theorem run_of_idle {s : Session} (hidle : s.state = .idle) (hblock : s.program.isEmpty = false) :
    s.run = (true, { s with
      program := s.program.setFrozen true
      play := s.play.launch (.launch s.template s.program)
      pacer := s.pacer.start }) := by
  rw [run, if_neg]
  rw [hidle, hblock]
  simp

/-- Two sessions that agree in everything but settings and clock. -/
def Twin (s s' : Session) : Prop := s' = { s with settings := s'.settings, pacer := s'.pacer }

namespace Twin

variable {s s' : Session}

theorem play_eq (h : s.Twin s') : s'.play = s.play := by rw [h]

theorem template_eq (h : s.Twin s') : s'.template = s.template := by rw [h]

theorem program_eq (h : s.Twin s') : s'.program = s.program := by rw [h]

/-- The same edits on both leave them twins. -/
theorem exists_edited (h : s.Twin s') {edits : List Operation}
    (hedits : ∀ edit ∈ edits, edit.isEdit = true) :
    ∃ t t', s.history edits = .ok t ∧ s'.history edits = .ok t' ∧ t.Twin t' ∧ t.play = s.play := by
  obtain ⟨program, hedited⟩ := exists_program_of_edits hedits s
  have hs' := hedited s'.settings s'.pacer
  rw [← h] at hs'
  exact ⟨_, _, hedited s.settings s.pacer, hs', rfl, rfl⟩

/-- So does a run that both take. -/
theorem run (h : s.Twin s') (hidle : s.state = .idle) (hblock : s.program.isEmpty = false) :
    s'.run.1 = true ∧ s.run.2.Twin s'.run.2 := by
  have hidle' : s'.state = .idle := by
    rw [h]
    exact hidle
  rw [run_of_idle hidle hblock, run_of_idle hidle' (by rw [h.program_eq, hblock]), h]
  exact ⟨rfl, rfl⟩

/-- **Twins end alike**, whatever times each of them is fed: every moment of either is some
timeless steps after the start of both, and that has one end. -/
theorem exists_paced (h : s.Twin s') (hs : s.Consistent) (hs' : s'.Consistent)
    (dts dts' : List Float32) :
    ∃ path path', s.chronicle (dts.map .update) = .ok path ∧
      s.history (dts.map .update) = .ok (path.getLastD s) ∧
      s'.chronicle (dts'.map .update) = .ok path' ∧
      s'.history (dts'.map .update) = .ok (path'.getLastD s') ∧
      (∀ m ∈ s :: path, ∃ n, s.play.stepTimes s.template.celebrates n = .ok m.play) ∧
      (∀ m ∈ s' :: path', ∃ n, s.play.stepTimes s.template.celebrates n = .ok m.play) ∧
      ∀ m ∈ s :: path, ∀ m' ∈ s' :: path',
        m.state.isTerminal = true → m'.state.isTerminal = true → m'.play = m.play := by
  obtain ⟨path, hpath, hhistory, hpaced⟩ := hs.exists_paced dts
  obtain ⟨path', hpath', hhistory', hpaced'⟩ := hs'.exists_paced dts'
  have hsteps : ∀ m ∈ s :: path, ∃ n, s.play.stepTimes s.template.celebrates n = .ok m.play := by
    intro m hm
    obtain ⟨n, hn⟩ := hpaced m hm
    exact ⟨n, hn.steps⟩
  have hsteps' : ∀ m ∈ s' :: path',
      ∃ n, s.play.stepTimes s.template.celebrates n = .ok m.play := by
    intro m hm
    obtain ⟨n, hn⟩ := hpaced' m hm
    exact ⟨n, by rw [← h.play_eq, ← h.template_eq, hn.steps]⟩
  refine ⟨path, path', hpath, hhistory, hpath', hhistory', hsteps, hsteps', ?_⟩
  intro m hm m' hm' hend hend'
  obtain ⟨n, hn⟩ := hsteps m hm
  obtain ⟨n', hn'⟩ := hsteps' m' hm'
  exact Play.eq_of_isTerminal hn hn' hend hend'

end Twin

/-- With settings that differ in nothing but timing, new sessions are twins. -/
theorem exists_twins (variant : Variant) {settings settings' : Settings}
    (same : settings.SameButTiming settings') (drawn : UInt64) :
    ∃ s s', create variant settings (settings.resolveSeed drawn) = .ok s ∧
      create variant settings' (settings'.resolveSeed drawn) = .ok s' ∧ s.Twin s' ∧
      s.Consistent ∧ s'.Consistent ∧ ∃ source, s.play = .idle source := by
  have hseed : settings'.seed = settings.seed := by rw [same]
  have hresolved : settings'.resolveSeed drawn = settings.resolveSeed drawn := by
    rw [Settings.resolveSeed, hseed, Settings.resolveSeed]
  rw [hresolved]
  obtain ⟨s, hs, -, -, hconsistent⟩ := exists_create variant settings _
  obtain ⟨s', hs', -, -, hconsistent'⟩ := exists_create variant settings' _
  refine ⟨s, s', hs, hs', ?_, hconsistent, hconsistent', ?_⟩
  all_goals
    rw [create] at hs hs'
    obtain ⟨⟨template, source⟩, hroll, hs⟩ := bind_eq_ok.mp hs
    rw [hroll] at hs'
    obtain rfl := Except.ok.inj hs
    obtain rfl := Except.ok.inj hs'
  · rfl
  · exact ⟨source, rfl⟩

/-- **Pacing never changes the outcome.**  Two sessions for one variant, with settings that differ
in nothing but timing and one seed, have the same program after the same edits.  Once it is run,
whatever times each of them is fed, every moment of either is a number of timeless steps after the
one start they share; and when both have come to an end, they agree in everything but the clock. -/
theorem outcome_independent_of_pacing (variant : Variant) {settings settings' : Settings}
    (same : settings.SameButTiming settings') (drawn : UInt64) {edits : List Operation}
    (hedits : ∀ edit ∈ edits, edit.isEdit = true) :
    ∃ s₀ s₀' s s', create variant settings (settings.resolveSeed drawn) = .ok s₀ ∧
      create variant settings' (settings'.resolveSeed drawn) = .ok s₀' ∧
      s₀.history edits = .ok s ∧ s₀'.history edits = .ok s' ∧ s'.program = s.program ∧
      (s.program.isEmpty = false →
        s.run.1 = true ∧ s'.run.1 = true ∧ s'.run.2.play = s.run.2.play ∧
        s.run.2.play.events = [] ∧ s.run.2.play.callbacks = [] ∧
        ∀ dts dts' : List Float32, ∃ path path',
          s.run.2.chronicle (dts.map .update) = .ok path ∧
          s.run.2.history (dts.map .update) = .ok (path.getLastD s.run.2) ∧
          s'.run.2.chronicle (dts'.map .update) = .ok path' ∧
          s'.run.2.history (dts'.map .update) = .ok (path'.getLastD s'.run.2) ∧
          (∀ m ∈ s.run.2 :: path,
            ∃ n, s.run.2.play.stepTimes s.template.celebrates n = .ok m.play) ∧
          (∀ m ∈ s'.run.2 :: path',
            ∃ n, s.run.2.play.stepTimes s.template.celebrates n = .ok m.play) ∧
          ∀ m ∈ s.run.2 :: path, ∀ m' ∈ s'.run.2 :: path',
            m.state.isTerminal = true → m'.state.isTerminal = true → m'.play = m.play) := by
  obtain ⟨s₀, s₀', hs₀, hs₀', htwins₀, hconsistent, hconsistent', source, hidle⟩ :=
    exists_twins variant same drawn
  obtain ⟨s, s', hs, hs', htwins, hplay⟩ := htwins₀.exists_edited hedits
  refine ⟨s₀, s₀', s, s', hs₀, hs₀', hs, hs', htwins.program_eq, fun hblock => ?_⟩
  have hstate : s.state = .idle := by rw [state, hplay, hidle]; rfl
  obtain ⟨htaken, hrunning⟩ := htwins.run hstate hblock
  have hrun := run_of_idle hstate hblock
  have hyes : s.run.1 = true := by rw [hrun]
  have htemplate : s.run.2.template = s.template := by rw [hrun]
  have hlaunched : s.run.2.play = (Play.idle source).launch (.launch s.template s.program) := by
    rw [hrun, ← hidle, ← hplay]
  refine ⟨hyes, htaken, hrunning.play_eq, by rw [hlaunched]; rfl, by rw [hlaunched]; rfl,
    fun dts dts' => ?_⟩
  have hends := hrunning.exists_paced ((hconsistent.of_history hs).of_passes s.passes_run)
    ((hconsistent'.of_history hs').of_passes s'.passes_run) dts dts'
  rwa [htemplate] at hends

/-- The first level, won after fifty-five feedings at the usual pace and after one without delays:
the two sessions end alike. -/
theorem outcome_independent_of_pacing_first :
    ∃ s s' m m', create (.maze "lvl1") .standard ⟨7⟩ = .ok s ∧
      create (.maze "lvl1") .undelayed ⟨7⟩ = .ok s' ∧
      s.history (List.replicate 4 (.append "b1") ++ .run :: (List.replicate 55 0.1).map .update)
        = .ok m ∧
      s'.history (List.replicate 4 (.append "b1") ++ .run :: [0.1].map .update) = .ok m' ∧
      m.state = .win ∧ m'.play = m.play := by
  have hedits : ∀ edit ∈ List.replicate 4 (Operation.append "b1"), edit.isEdit = true := by decide
  obtain ⟨s₀, s₀', s, s', hcreate, hcreate', hs, hs', -, hruns⟩ :=
    @outcome_independent_of_pacing (.maze "lvl1") .standard .undelayed rfl 7 _ hedits
  change create (.maze "lvl1") .standard ⟨7⟩ = .ok s₀ at hcreate
  change create (.maze "lvl1") .undelayed ⟨7⟩ = .ok s₀' at hcreate'
  have hblock : (create (.maze "lvl1") .standard ⟨7⟩).map (fun s =>
      (s.history (List.replicate 4 (.append "b1"))).map (·.program.isEmpty)) = .ok (.ok false) := by
    decide +kernel
  have hend : (create (.maze "lvl1") .standard ⟨7⟩).map (fun s =>
      (s.history (List.replicate 4 (.append "b1") ++
        .run :: (List.replicate 55 0.1).map .update)).map (·.state)) = .ok (.ok .win) := by
    decide +kernel
  have hend' : (create (.maze "lvl1") .undelayed ⟨7⟩).map (fun s =>
      (s.history (List.replicate 4 (.append "b1") ++ .run :: [0.1].map .update)).map (·.state))
        = .ok (.ok .win) := by
    decide +kernel
  rw [hcreate] at hblock hend
  rw [hcreate'] at hend'
  obtain ⟨t, ht, hready⟩ := map_eq_ok.mp (Except.ok.inj hblock)
  obtain ⟨m, hm, hwin⟩ := map_eq_ok.mp (Except.ok.inj hend)
  obtain ⟨m', hm', hwin'⟩ := map_eq_ok.mp (Except.ok.inj hend')
  obtain rfl := Except.ok.inj (hs.symm.trans ht)
  obtain ⟨-, -, -, -, -, hpaths⟩ := hruns hready
  obtain ⟨path, path', -, hlast, -, hlast', -, -, hsame⟩ := hpaths (List.replicate 55 0.1) [0.1]
  have hfed := hm
  have hfed' := hm'
  rw [history_append hs, history_cons rfl, hlast] at hfed
  rw [history_append hs', history_cons rfl, hlast'] at hfed'
  obtain rfl := Except.ok.inj hfed
  obtain rfl := Except.ok.inj hfed'
  refine ⟨s₀, s₀', _, _, hcreate, hcreate', hm, hm', hwin, ?_⟩
  exact hsame _ List.getLastD_mem_cons _ List.getLastD_mem_cons (by rw [hwin]; rfl)
    (by rw [hwin']; rfl)

end Session

end BlockCoding
