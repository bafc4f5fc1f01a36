import BlockCoding.Proofs.Pacer
import BlockCoding.Proofs.Session.Kinds
import BlockCoding.Session.Basic

/-!
# Proofs/Session/Consistency — what holds of a session at every moment

State, run, verdict, reward, program and clock of a session change together.  `Session.Consistent`
says how they agree in each state, and `Session.Passes` lists what can happen from one moment to
the next.  A passage changes the state only as it may be changed (`Passes.leadsTo`) and keeps a
session consistent (`Consistent.of_passes`).
-/

namespace BlockCoding

/-! ## States -/

/-- **How the state of a session may change.** -/
inductive SessionState.LeadsTo : SessionState → SessionState → Prop where
  | launch : LeadsTo .idle .running
  | celebrate : LeadsTo .running .celebrating
  | win : LeadsTo .running .win
  | fail : LeadsTo .running .fail
  | declare : LeadsTo .celebrating .win
  | reset (state : SessionState) : LeadsTo state .idle

namespace Session

/-- **What a session looks like** in each state. -/
def Shape (s : Session) : SessionState → Prop
  | .idle =>
    s.play.run = none ∧ s.verdict = none ∧ s.program.frozen = false ∧ s.pacer.Stopped
  | .running =>
    (∃ run, s.play.run = some run ∧ run.verdict? = none) ∧ s.verdict = none ∧
      s.play.rewarded = false ∧ s.program.frozen = true ∧ s.pacer.running = true
  | .celebrating =>
    (∃ r, s.play.run = some (.grid r) ∧ r.verdict = some .win ∧ r.rules.celebrate = true) ∧
      s.verdict = some .win ∧ s.play.rewarded = false ∧ s.program.frozen = true ∧
      s.pacer.running = true
  | .win =>
    s.verdict = some .win ∧ s.play.rewarded = true ∧ s.program.frozen = true ∧ s.pacer.Stopped
  | .fail =>
    (∃ cause, s.verdict = some (.fail cause)) ∧ s.play.rewarded = false ∧
      s.program.frozen = true ∧ s.pacer.Stopped

/-- **A session in order**: it looks as its state says, and its world and run are of the kind of
its variant. -/
structure Consistent (s : Session) : Prop where
  shape : s.Shape s.state
  world : s.template.Fits s.variant
  run : ∀ run, s.play.run = some run → run.Fits s.variant

theorem Consistent.shape_of_state {s : Session} (h : s.Consistent) {state : SessionState}
    (hs : s.state = state) : s.Shape state := by
  rw [← hs]
  exact h.shape

/-- A session that is neither running nor celebrating has stopped its clock. -/
theorem Consistent.stopped {s : Session} (h : s.Consistent) (hs : s.state.isBusy = false) :
    s.pacer.Stopped := by
  have hshape := h.shape
  rcases hstate : s.state with _ | _ | _ | _ | _ <;> rw [hstate] at hs hshape
  · exact hshape.2.2.2
  · cases hs
  · cases hs
  · exact hshape.2.2.2
  · exact hshape.2.2.2

/-- **Where nothing is under way, time changes nothing.** -/
theorem update_of_stopped {s : Session} (h : s.pacer.Stopped) (dt : Float32) :
    s.update dt = .ok s := by
  rw [update, Pacer.deliver, Pacer.advance_of_stopped h, Pacer.deliverUpTo_of_stopped h]
  rfl

/-! ## From one moment to the next -/

/-- The same run at the same point: blocks may be edited, events drained, and time fed. -/
structure Still (s s' : Session) : Prop where
  variant_eq : s'.variant = s.variant
  template_eq : s'.template = s.template
  play_eq : s'.play = { s.play with events := s'.play.events }
  events : s'.play.events = s.play.events ∨ s'.play.events = []
  frozen_eq : s'.program.frozen = s.program.frozen
  running_eq : s'.pacer.running = s.pacer.running
  stopped : s.pacer.Stopped → s'.pacer.Stopped

namespace Still

variable {s s' : Session}

theorem state_eq (h : s.Still s') : s'.state = s.state := by rw [state, h.play_eq, state]

theorem verdict_eq (h : s.Still s') : s'.verdict = s.verdict := by
  rw [verdict, h.play_eq, verdict]

theorem run_eq (h : s.Still s') : s'.play.run = s.play.run := by rw [h.play_eq]

theorem rewarded_eq (h : s.Still s') : s'.play.rewarded = s.play.rewarded := by rw [h.play_eq]

theorem callbacks_eq (h : s.Still s') : s'.play.callbacks = s.play.callbacks := by rw [h.play_eq]

end Still

end Session

namespace Play

/-- A play with the result of a step taken over. -/
def after (p : Play) (t : Tick ActiveRun Pcg) : Play :=
  { p with run := some t.state, source := t.source, events := p.events ++ t.events }

@[simp] theorem state_enterWin (p : Play) : p.enterWin.state = .win := by
  rw [enterWin]
  split <;> rfl

@[simp] theorem verdict_enterWin (p : Play) : p.enterWin.verdict = p.verdict := by
  rw [enterWin]
  split <;> rfl

@[simp] theorem run_enterWin (p : Play) : p.enterWin.run = p.run := by
  rw [enterWin]
  split <;> rfl

@[simp] theorem events_enterWin (p : Play) : p.enterWin.events = p.events := by
  rw [enterWin]
  split <;> rfl

@[simp] theorem rewarded_enterWin (p : Play) : p.enterWin.rewarded = true := by
  rw [enterWin]
  split
  · assumption
  · rfl

/-- A run that has not been paid for is paid for when its win is declared. -/
theorem callbacks_enterWin {p : Play} (h : p.rewarded = false) :
    p.enterWin.callbacks = p.callbacks ++ payout ((p.run.map ActiveRun.reward).getD 0) := by
  rw [enterWin, h]
  rfl

/-- A step of a run under way: it goes on, or the consequences of its verdict are drawn. -/
theorem step_of_running {p : Play} {run : ActiveRun} {t : Tick ActiveRun Pcg}
    (hstate : p.state = .running) (hrun : p.run = some run)
    (ht : run.advance p.source = .ok t) (celebrates : Bool) :
    p.step celebrates = .ok (match t.verdict with
      | none => (p.after t, if run.isScanning then .scan else .steady)
      | some verdict => (p.after t).conclude celebrates t.state verdict) := by
  obtain ⟨_, _, _, _, _, _, _⟩ := p
  obtain rfl := hstate
  obtain rfl := hrun
  simp only [step, ht, ok_bind]
  cases t.verdict <;> rfl

theorem step_of_celebrating {p : Play} (hstate : p.state = .celebrating) (celebrates : Bool) :
    p.step celebrates = .ok (p.enterWin, .halt) := by
  simp only [step, hstate]
  rfl

end Play

namespace Session

/-- **What can happen from one moment to the next.** -/
inductive Passes (s : Session) : Session → Prop where
  /-- The run stays where it is. -/
  | still {s' : Session} (same : s.Still s') : Passes s s'
  | launched (idle : s.state = .idle) : Passes s { s with
      program := s.program.setFrozen true
      play := s.play.launch (.launch s.template s.program)
      pacer := s.pacer.start }
  /-- A step that does not end the run. -/
  | advanced {run : ActiveRun} {t : Tick ActiveRun Pcg} {pacer : Pacer}
      (running : s.state = .running) (current : s.play.run = some run)
      (tick : run.advance s.play.source = .ok t) (ongoing : t.verdict = none)
      (ticking : pacer.running = true) : Passes s { s with pacer, play := s.play.after t }
  /-- A step that ends the run; its consequences depend on the verdict and on the world. -/
  | concluded {run : ActiveRun} {t : Tick ActiveRun Pcg} {verdict : Verdict} {pacer : Pacer}
      (running : s.state = .running) (current : s.play.run = some run)
      (tick : run.advance s.play.source = .ok t) (ended : t.verdict = some verdict)
      (ticking : pacer.running = true) : Passes s { s with
        pacer := follow s.settings pacer
          ((s.play.after t).conclude s.template.celebrates t.state verdict).2
        play := ((s.play.after t).conclude s.template.celebrates t.state verdict).1 }
  /-- The end of a celebration. -/
  | declared {pacer : Pacer} (celebrating : s.state = .celebrating) (stopped : pacer.Stopped) :
      Passes s { s with pacer, play := s.play.enterWin }
  /-- A reset, or a change of variant. -/
  | returned {variant : Variant} {program : Program} {template : Template} {source : Pcg}
      {pacer : Pacer} (world : template.Fits variant) (unfrozen : program.frozen = false)
      (stopped : pacer.Stopped) : Passes s { s with
        variant, program, template, pacer
        play := { s.play.reset with source } }

/-- **Every passage changes the state as it may be changed**, or leaves it. -/
theorem Passes.leadsTo {s s' : Session} (h : s.Passes s') :
    s'.state = s.state ∨ s.state.LeadsTo s'.state := by
  cases h with
  | still same => exact .inl same.state_eq
  | launched idle =>
    rw [idle]
    exact .inr .launch
  | advanced => exact .inl rfl
  | @concluded run t verdict pacer running current tick ended ticking =>
    refine .inr ?_
    rw [running]
    rcases verdict with _ | cause
    · rcases hcelebrates : s.template.celebrates with _ | _
      · have hstate : ((s.play.after t).conclude false t.state .win).1.state = .win :=
          Play.state_enterWin _
        simp only [state, hstate]
        exact .win
      · exact .celebrate
    · exact .fail
  | declared celebrating stopped =>
    refine .inr ?_
    rw [celebrating, state, Play.state_enterWin]
    exact .declare
  | returned => exact .inr (.reset _)

/-! ## Every passage keeps a session consistent -/

theorem running_follow_celebration (settings : Settings) (p : Pacer) :
    (follow settings p .celebration).running = p.running := Pacer.running_delayNext p _

theorem running_follow_step (settings : Settings) (p : Pacer) (run : ActiveRun) :
    (follow settings p (if run.isScanning then .scan else .steady)).running = p.running := by
  split
  · exact Pacer.running_delayNext p _
  · rfl

/-- A run under way is a run without verdict, of the kind of the variant. -/
theorem Consistent.under_way {s : Session} (h : s.Consistent) (hs : s.state = .running)
    {run : ActiveRun} (hrun : s.play.run = some run) :
    run.Fits s.variant ∧ run.verdict? = none := by
  obtain ⟨⟨run', hrun', hverdict⟩, -⟩ := h.shape_of_state hs
  obtain rfl : run' = run := Option.some.inj (hrun'.symm.trans hrun)
  exact ⟨h.run run' hrun', hverdict⟩

/-- A session with the same run at the same point looks the same. -/
theorem Still.shape {s s' : Session} (same : s.Still s') {state : SessionState}
    (h : s.Shape state) : s'.Shape state := by
  rcases state with _ | _ | _ | _ | _ <;>
    rw [Shape, same.verdict_eq, same.frozen_eq]
  · obtain ⟨hrun, hverdict, hfrozen, hstopped⟩ := h
    exact ⟨same.run_eq.trans hrun, hverdict, hfrozen, same.stopped hstopped⟩
  · rw [same.run_eq, same.rewarded_eq, same.running_eq]
    exact h
  · rw [same.run_eq, same.rewarded_eq, same.running_eq]
    exact h
  · obtain ⟨hverdict, hrewarded, hfrozen, hstopped⟩ := h
    exact ⟨hverdict, same.rewarded_eq.trans hrewarded, hfrozen, same.stopped hstopped⟩
  · obtain ⟨hverdict, hrewarded, hfrozen, hstopped⟩ := h
    exact ⟨hverdict, same.rewarded_eq.trans hrewarded, hfrozen, same.stopped hstopped⟩

/-- The verdict of a run under way leads to the state it asks for. -/
theorem Consistent.of_concluded {s : Session} (h : s.Consistent) (hs : s.state = .running)
    {run : ActiveRun} (hrun : s.play.run = some run) {t : Tick ActiveRun Pcg}
    (ht : run.advance s.play.source = .ok t) {verdict : Verdict}
    (hverdict : t.verdict = some verdict) {pacer : Pacer} (hpacer : pacer.running = true) :
    Consistent { s with
      pacer := follow s.settings pacer
        ((s.play.after t).conclude s.template.celebrates t.state verdict).2
      play := ((s.play.after t).conclude s.template.celebrates t.state verdict).1 } := by
  obtain ⟨hfits, hnone⟩ := h.under_way hs hrun
  obtain ⟨hfits', hadvanced⟩ := hfits.of_advance hnone ht
  obtain ⟨-, -, hrewarded, hfrozen, -⟩ := h.shape_of_state hs
  have hkind : ∀ run, some t.state = some run → run.Fits s.variant := by
    intro run hrun
    obtain rfl := Option.some.inj hrun
    exact hfits'
  rcases verdict with _ | cause
  · rcases hcelebrates : s.template.celebrates with _ | _
    · refine ⟨?_, h.world, ?_⟩
      · simp only [state, Play.conclude, Play.state_enterWin, if_neg Bool.false_ne_true]
        exact ⟨Play.verdict_enterWin _, Play.rewarded_enterWin _, hfrozen, Pacer.stopped_cancel _⟩
      · simp only [Play.conclude, if_neg Bool.false_ne_true, Play.run_enterWin]
        exact hkind
    -- the world celebrates under the rules of the variant, and the run is under the same rules
    · obtain ⟨rules, hrules, hcelebrate⟩ := h.world.exists_rules hcelebrates
      obtain ⟨r, hr, hr'⟩ := hfits'.exists_grid hrules
      refine ⟨⟨⟨r, congrArg some hr, ?_, ?_⟩, rfl, hrewarded, hfrozen, ?_⟩, h.world, hkind⟩
      · rw [hadvanced.verdict_eq hr, hverdict]
      · rw [hr', hcelebrate]
      · exact (running_follow_celebration _ _).trans hpacer
  · exact ⟨⟨⟨cause, rfl⟩, hrewarded, hfrozen, Pacer.stopped_cancel _⟩, h.world, hkind⟩

/-- **Every passage keeps a session consistent.** -/
theorem Consistent.of_passes {s s' : Session} (h : s.Consistent) (hp : s.Passes s') :
    s'.Consistent := by
  cases hp with
  | still same =>
    refine ⟨?_, ?_, ?_⟩
    · rw [same.state_eq]
      exact same.shape h.shape
    · rw [same.template_eq, same.variant_eq]
      exact h.world
    · rw [same.run_eq, same.variant_eq]
      exact h.run
  | launched idle =>
    obtain ⟨hfits, hnone, -⟩ := ActiveRun.fits_launch h.world s.program
    refine ⟨⟨⟨_, rfl, hnone⟩, rfl, rfl, rfl, rfl⟩, h.world, ?_⟩
    intro run hrun
    obtain rfl := Option.some.inj hrun
    exact hfits
  | @advanced run t pacer running current tick ongoing ticking =>
    obtain ⟨hfits, hnone⟩ := h.under_way running current
    obtain ⟨hfits', hadvanced⟩ := hfits.of_advance hnone tick
    obtain ⟨-, hverdict, hrewarded, hfrozen, -⟩ := h.shape_of_state running
    refine ⟨?_, h.world, ?_⟩
    · change Shape _ s.state
      rw [running]
      exact ⟨⟨_, rfl, hadvanced.verdict?_eq_none ongoing⟩, hverdict, hrewarded, hfrozen, ticking⟩
    · intro run hrun
      obtain rfl := Option.some.inj hrun
      exact hfits'
  | concluded running current tick ended ticking =>
    exact h.of_concluded running current tick ended ticking
  | declared celebrating stopped =>
    obtain ⟨-, hverdict, -, hfrozen, -⟩ := h.shape_of_state celebrating
    refine ⟨?_, h.world, ?_⟩
    · rw [state, Play.state_enterWin]
      exact ⟨(Play.verdict_enterWin _).trans hverdict, Play.rewarded_enterWin _, hfrozen, stopped⟩
    · rw [Play.run_enterWin]
      exact h.run
  | returned world unfrozen stopped =>
    refine ⟨⟨rfl, rfl, unfrozen, stopped⟩, world, ?_⟩
    intro run hrun
    cases hrun

end Session

end BlockCoding
