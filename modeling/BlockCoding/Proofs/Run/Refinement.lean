import BlockCoding.Block.Action
import BlockCoding.Level.Ruins
import BlockCoding.Proofs.Run.Cursor
import BlockCoding.Proofs.Run.Effect
import BlockCoding.Run.Replay

/-!
# Proofs/Run/Refinement — stepping a run is replaying its expansion

`Stepped` lists what one step of a run can come to, in terms of the actions that remain;
`GridRun.exists_stepped` says that a step on a tiled world always comes to one of these, as long as
the avatar has not started from the end of the coordinates.  From it
`steps_eq_replayFrom` follows by induction: as long as there are more steps allowed than actions
left, stepping to the end and replaying what remains give the same transcript.
-/

namespace BlockCoding

namespace GridRun

/-! ## One step -/

/-- A run that has taken the block at `index`, with what came of it. -/
def resume (r : GridRun) (index cursor : Nat) (pending : Option PendingRepeat) (world : Grid)
    (context : Context) : GridRun :=
  { r with
    cursor, pending, world, context
    executing := some index
    trace := r.trace ++ [context.pos] }

/-- **What one step can come to**, while there is no verdict yet. -/
inductive Stepped (r : GridRun) : List Event → GridRun → Prop where
  /-- Nothing is left to execute. -/
  | exhausted (cursor : Nat) (executing : Option Nat) (empty : r.remaining = []) :
      Stepped r [.finished (.fail .incomplete)] { r with
        cursor, executing
        pending := none
        verdict := some (.fail .incomplete) }
  /-- The next action is refused. -/
  | rejected (cursor : Nat) (pending : Option PendingRepeat) {index : Nat} {action : Action}
      {rest : List (Nat × Action)} {cause : FailCause}
      (next : r.remaining = (index, action) :: rest)
      (refused : r.rules.perform r.world r.context action = .ok (.rejected cause)) :
      Stepped r [.executing index, .finished (.fail cause)] { r with
        cursor, pending
        executing := some index
        verdict := some (.fail cause) }
  /-- The next action takes effect and ends the run. -/
  | ended {index cursor : Nat} {action : Action} {rest : List (Nat × Action)}
      {pending : Option PendingRepeat} {world : Grid} {context : Context} {raised : List Event}
      {verdict : Verdict} (next : r.remaining = (index, action) :: rest)
      (done : r.rules.perform r.world r.context action = .ok (.performed world context raised))
      (left : (r.resume index cursor pending world context).remaining = rest)
      (due : (r.resume index cursor pending world context).verdictDue = .ok (some verdict)) :
      Stepped r (.executing index :: raised ++ [.finished verdict])
        { r.resume index cursor pending world context with verdict := some verdict }
  /-- The next action takes effect and the run goes on. -/
  | continued {index cursor : Nat} {action : Action} {rest : List (Nat × Action)}
      {pending : Option PendingRepeat} {world : Grid} {context : Context} {raised : List Event}
      (next : r.remaining = (index, action) :: rest)
      (done : r.rules.perform r.world r.context action = .ok (.performed world context raised))
      (left : (r.resume index cursor pending world context).remaining = rest)
      (coherent : (r.resume index cursor pending world context).Coherent)
      (due : (r.resume index cursor pending world context).verdictDue = .ok none) :
      Stepped r (.executing index :: raised) (r.resume index cursor pending world context)

/-- **When a verdict is due**: a win comes before the end of the energy, and that before the end of
the program. -/
theorem verdictDue_eq {r : GridRun} (hw : r.world.Tiled) :
    ∃ won, r.rules.win.holds r.world r.context = .ok won ∧
      r.verdictDue = .ok (if won then some .win
        else if r.context.energy = 0 then some (.fail .outOfEnergy)
        else if r.peek?.isNone then some (.fail .incomplete) else none) := by
  obtain ⟨won, hwon⟩ := r.rules.win.exists_holds hw r.context
  refine ⟨won, hwon, ?_⟩
  rw [verdictDue, hwon, ok_bind]
  split
  · rfl
  · split
    · rfl
    · split <;> rfl

/-- A verdict that is due has its reason. -/
theorem of_verdictDue_some {r : GridRun} (hw : r.world.Tiled) (hv : r.verdict = none)
    {verdict : Verdict} (h : r.verdictDue = .ok (some verdict)) :
    (verdict = .win ∧ r.rules.win.holds r.world r.context = .ok true) ∨
      (r.rules.win.holds r.world r.context = .ok false ∧
        (verdict = .fail .outOfEnergy ∧ r.context.energy = 0 ∨
          verdict = .fail .incomplete ∧ r.context.energy ≠ 0 ∧ r.remaining = [])) := by
  obtain ⟨won, hwon, hdue⟩ := verdictDue_eq hw
  obtain hsome := Except.ok.inj (hdue.symm.trans h)
  cases won with
  | true => exact .inl ⟨(Option.some.inj hsome).symm, hwon⟩
  | false =>
    refine .inr ⟨hwon, ?_⟩
    by_cases henergy : r.context.energy = 0
    · exact .inl ⟨by simpa [henergy] using hsome.symm, henergy⟩
    · cases hpeek : r.peek? with
      | none =>
        exact .inr ⟨by simpa [henergy, hpeek] using hsome.symm, henergy,
          remaining_of_peek?_none hv hpeek⟩
      | some action => simp [henergy, hpeek] at hsome

/-- Where none is due, the run is not won and has energy left. -/
theorem of_verdictDue_none {r : GridRun} (hw : r.world.Tiled) (h : r.verdictDue = .ok none) :
    r.rules.win.holds r.world r.context = .ok false ∧ r.context.energy ≠ 0 := by
  obtain ⟨won, hwon, hdue⟩ := verdictDue_eq hw
  obtain hnone := Except.ok.inj (hdue.symm.trans h)
  cases won with
  | true => simp at hnone
  | false => exact ⟨hwon, fun henergy => by simp [henergy] at hnone⟩

/-- The world after an action is as tiled as before. -/
theorem tiled_of_perform {rules : Rules} {world world' : Grid} {ctx ctx' : Context}
    {action : Action} {raised : List Event} (hw : world.Tiled)
    (h : rules.perform world ctx action = .ok (.performed world' ctx' raised)) : world'.Tiled :=
  ((rules.effect_of_perform hw ctx h).clearedFrom hw (.refl world)).shape.tiled hw

/-- No action leads to the end of the coordinates. -/
theorem not_onRim_of_perform {rules : Rules} {world world' : Grid} {ctx ctx' : Context}
    {action : Action} {raised : List Event} (hw : world.Tiled) (hpos : ¬ ctx.pos.OnRim)
    (h : rules.perform world ctx action = .ok (.performed world' ctx' raised)) :
    ¬ ctx'.pos.OnRim := by
  rcases (rules.effect_of_perform hw ctx h).pos_eq_or_inBounds with heq | hin
  · rwa [heq]
  · exact Grid.not_onRim_of_inBounds hin

section Due

variable {r : GridRun} {index cursor : Nat} {action : Action} {pending : Option PendingRepeat}
  {world : Grid} {context : Context} {raised : List Event}

/-- **A verdict that is due after an action has its reason.** -/
theorem resume_verdictDue_some (hw : r.world.Tiled) (hv : r.verdict = none)
    (done : r.rules.perform r.world r.context action = .ok (.performed world context raised))
    {verdict : Verdict}
    (due : (r.resume index cursor pending world context).verdictDue = .ok (some verdict)) :
    (verdict = .win ∧ r.rules.win.holds world context = .ok true) ∨
      (r.rules.win.holds world context = .ok false ∧
        (verdict = .fail .outOfEnergy ∧ context.energy = 0 ∨
          verdict = .fail .incomplete ∧ context.energy ≠ 0 ∧
            (r.resume index cursor pending world context).remaining = [])) :=
  @of_verdictDue_some (r.resume index cursor pending world context) (tiled_of_perform hw done) hv
    verdict due

/-- A run that goes on after an action is not won and has energy left. -/
theorem resume_verdictDue_none (hw : r.world.Tiled)
    (done : r.rules.perform r.world r.context action = .ok (.performed world context raised))
    (due : (r.resume index cursor pending world context).verdictDue = .ok none) :
    r.rules.win.holds world context = .ok false ∧ context.energy ≠ 0 :=
  @of_verdictDue_none (r.resume index cursor pending world context) (tiled_of_perform hw done) due

end Due

/-- **A step on a tiled world goes well**, and it is one of those. -/
theorem exists_stepped {r : GridRun} (hw : r.world.Tiled) (hpos : ¬ r.context.pos.OnRim)
    (hv : r.verdict = none) (hr : r.Coherent) :
    ∃ events r', r.step = .ok (events, r') ∧ r.Stepped events r' := by
  cases hrem : r.remaining with
  | nil =>
    obtain ⟨cursor, executing, hfetch, -⟩ := fetch_of_remaining_nil hr hrem
    exact ⟨_, _, by simp only [step, hv, hfetch]; rfl, .exhausted cursor executing hrem⟩
  | cons head rest =>
    obtain ⟨index, action⟩ := head
    obtain ⟨cursor, pending, hfetch, hleft, hcoh⟩ := fetch_of_remaining_cons hr hrem
    obtain ⟨outcome, hperform, -⟩ := r.rules.exists_effect hw r.context hpos action
    cases outcome with
    | rejected cause =>
      exact ⟨_, _, by simp only [step, hv, hfetch, hperform]; rfl,
        .rejected cursor pending hrem hperform⟩
    | performed world context raised =>
      obtain ⟨won, -, hdue⟩ := @verdictDue_eq (r.resume index cursor pending world context)
        (tiled_of_perform hw hperform)
      generalize (if won then _ else _ : Option Verdict) = due at hdue
      cases due with
      | some verdict =>
        refine ⟨_, _, ?_, .ended hrem hperform hleft hdue⟩
        simp only [resume, hv] at hdue
        simp only [step, resume, hv, hfetch, hperform, ok_bind, hdue]
        rfl
      | none =>
        refine ⟨_, _, ?_, .continued hrem hperform hleft hcoh hdue⟩
        simp only [resume, hv] at hdue
        simp only [step, resume, hv, hfetch, hperform, ok_bind, hdue]
        rfl

end GridRun

/-! ## Replaying -/

section Replay

variable {rules : Rules} {world world' : Grid} {ctx ctx' : Context} {trace : List Cell}
  {index : Nat} {action : Action} {rest : List (Nat × Action)} {raised : List Event}

/-- A refused move ends a replay. -/
theorem replayFrom_rejected {cause : FailCause}
    (h : rules.perform world ctx action = .ok (.rejected cause)) :
    replayFrom rules world ctx trace ((index, action) :: rest)
      = .ok (.ending (.fail cause) [.executing index] trace ctx world) := by
  rw [replayFrom, h]
  rfl

/-- An action that wins ends a replay. -/
theorem replayFrom_won (h : rules.perform world ctx action = .ok (.performed world' ctx' raised))
    (hwon : rules.win.holds world' ctx' = .ok true) :
    replayFrom rules world ctx trace ((index, action) :: rest)
      = .ok (.ending .win (.executing index :: raised) (trace ++ [ctx'.pos]) ctx' world') := by
  simp only [replayFrom, h, ok_bind, hwon]
  rfl

/-- So does one that takes the last energy. -/
theorem replayFrom_outOfEnergy
    (h : rules.perform world ctx action = .ok (.performed world' ctx' raised))
    (hwon : rules.win.holds world' ctx' = .ok false) (henergy : ctx'.energy = 0) :
    replayFrom rules world ctx trace ((index, action) :: rest)
      = .ok (.ending (.fail .outOfEnergy) (.executing index :: raised) (trace ++ [ctx'.pos]) ctx'
          world') := by
  simp only [replayFrom, h, ok_bind, hwon, henergy]
  rfl

/-- After any other action a replay goes on. -/
theorem replayFrom_continued
    (h : rules.perform world ctx action = .ok (.performed world' ctx' raised))
    (hwon : rules.win.holds world' ctx' = .ok false) (henergy : ctx'.energy ≠ 0) :
    replayFrom rules world ctx trace ((index, action) :: rest)
      = (replayFrom rules world' ctx' (trace ++ [ctx'.pos]) rest).map
          (.after (.executing index :: raised)) := by
  simp only [replayFrom, h, ok_bind, hwon, if_neg henergy]
  cases replayFrom rules world' ctx' (trace ++ [ctx'.pos]) rest <;> rfl

/-- **How a replay takes up an action**, one constructor for each of these equations. -/
inductive TakesUp (rules : Rules) (world : Grid) (ctx : Context) (action : Action) : Prop where
  | rejected {cause : FailCause} (refused : rules.perform world ctx action = .ok (.rejected cause))
  | won {world' : Grid} {ctx' : Context} {raised : List Event}
      (done : rules.perform world ctx action = .ok (.performed world' ctx' raised))
      (won : rules.win.holds world' ctx' = .ok true)
  | outOfEnergy {world' : Grid} {ctx' : Context} {raised : List Event}
      (done : rules.perform world ctx action = .ok (.performed world' ctx' raised))
      (unwon : rules.win.holds world' ctx' = .ok false) (spent : ctx'.energy = 0)
  | continued {world' : Grid} {ctx' : Context} {raised : List Event}
      (done : rules.perform world ctx action = .ok (.performed world' ctx' raised))
      (unwon : rules.win.holds world' ctx' = .ok false) (left : ctx'.energy ≠ 0)

/-- On a tiled world, a replay that comes to an end has taken up its first action in one of these
ways. -/
theorem Grid.Tiled.takesUp (hw : world.Tiled) {t : Transcript}
    (h : replayFrom rules world ctx trace ((index, action) :: rest) = .ok t) :
    TakesUp rules world ctx action := by
  rw [replayFrom] at h
  obtain ⟨outcome, hperform, -⟩ := bind_eq_ok.mp h
  cases outcome with
  | rejected cause => exact .rejected hperform
  | performed world' ctx' raised =>
    have hw' := GridRun.tiled_of_perform hw hperform
    obtain ⟨won, hwon⟩ := rules.win.exists_holds hw' ctx'
    cases won with
    | true => exact .won hperform hwon
    | false =>
      by_cases henergy : ctx'.energy = 0
      · exact .outOfEnergy hperform hwon henergy
      · exact .continued hperform hwon henergy

end Replay

/-! ## Stepping to the end -/

namespace GridRun

/-- A run that has come to an end as a transcript says. -/
structure Shows (r : GridRun) (t : Transcript) : Prop where
  verdict : r.verdict = some t.verdict
  trace : r.trace = t.trace
  context : r.context = t.context
  world : r.world = t.world

theorem steps_succ_of_verdict {r r' : GridRun} {events : List Event} {verdict : Verdict}
    (h : r.step = .ok (events, r')) (hv : r'.verdict = some verdict) (n : Nat) :
    steps (n + 1) r = .ok (events, r') := by
  simp [steps, h, hv]

theorem steps_succ_of_no_verdict {r r' : GridRun} {events : List Event}
    (h : r.step = .ok (events, r')) (hv : r'.verdict = none) (n : Nat) :
    steps (n + 1) r = (steps n r').map fun s => (events ++ s.1, s.2) := by
  simp only [steps, h, hv, ok_bind]
  cases steps n r' <;> rfl

/-- **Stepping to the end replays what remains**, as long as more steps are allowed than actions
remain.  The induction is on the steps; a step that goes on leaves the tail of what remains. -/
theorem steps_eq_replayFrom {r : GridRun} (hw : r.world.Tiled) (hpos : ¬ r.context.pos.OnRim)
    (hv : r.verdict = none) (hr : r.Coherent) {n : Nat} (hn : r.remaining.length < n) :
    ∃ t r', replayFrom r.rules r.world r.context r.trace r.remaining = .ok t ∧
      steps n r = .ok (t.events, r') ∧ r'.Shows t := by
  induction n generalizing r with
  | zero => exact absurd hn (Nat.not_lt_zero _)
  | succ n ih =>
    obtain ⟨events, r', hstep, hstepped⟩ := exists_stepped hw hpos hv hr
    cases hstepped with
    | exhausted cursor executing hempty =>
      refine ⟨_, _, by rw [hempty]; rfl, steps_succ_of_verdict hstep rfl n, rfl, rfl, rfl, rfl⟩
    | rejected cursor pending hnext hrefused =>
      refine ⟨_, _, by rw [hnext]; exact replayFrom_rejected hrefused,
        steps_succ_of_verdict hstep rfl n, rfl, rfl, rfl, rfl⟩
    | @ended index cursor action rest pending world context raised verdict hnext hdone hleft hdue =>
      refine ⟨.ending verdict (.executing index :: raised) (r.trace ++ [context.pos]) context world,
        _, ?_, steps_succ_of_verdict hstep rfl n, rfl, rfl, rfl, rfl⟩
      rw [hnext]
      rcases resume_verdictDue_some hw hv hdone hdue with
        ⟨rfl, hwon⟩ | ⟨hwon, ⟨rfl, henergy⟩ | ⟨rfl, henergy, hempty⟩⟩
      · exact replayFrom_won hdone hwon
      · exact replayFrom_outOfEnergy hdone hwon henergy
      · rw [replayFrom_continued hdone hwon henergy, ← hleft, hempty]
        rfl
    | @continued index cursor action rest pending world context raised hnext hdone hleft hcoh
        hdue =>
      have hw' : (r.resume index cursor pending world context).world.Tiled :=
        tiled_of_perform hw hdone
      have hpos' : ¬ context.pos.OnRim := not_onRim_of_perform hw hpos hdone
      obtain ⟨hwon, henergy⟩ := resume_verdictDue_none hw hdone hdue
      have hlt : (r.resume index cursor pending world context).remaining.length < n := by
        rw [hleft]
        rw [hnext, List.length_cons] at hn
        omega
      obtain ⟨t, r', hreplay, hsteps, hshows⟩ := ih hw' hpos' hv hcoh hlt
      refine ⟨t.after (.executing index :: raised), r', ?_, ?_, ⟨hshows.verdict, hshows.trace,
        hshows.context, hshows.world⟩⟩
      · rw [hnext, replayFrom_continued hdone hwon henergy, ← hleft]
        exact congrArg _ hreplay
      · rw [steps_succ_of_no_verdict hstep hv, hsteps]
        rfl

/-- Once there is a verdict, allowing more steps changes nothing. -/
theorem steps_of_le {r r' : GridRun} {events : List Event} {verdict : Verdict} {m n : Nat}
    (h : steps m r = .ok (events, r')) (hr : r.verdict = none) (hv : r'.verdict = some verdict)
    (hmn : m ≤ n) : steps n r = .ok (events, r') := by
  induction m generalizing r events n with
  | zero =>
    obtain ⟨rfl, rfl⟩ := Prod.mk.inj (Except.ok.inj h)
    rw [hr] at hv
    cases hv
  | succ m ih =>
    obtain ⟨n, rfl⟩ : ∃ k, n = k + 1 := ⟨n - 1, by omega⟩
    rw [steps] at h
    obtain ⟨⟨now, r₁⟩, hstep, h⟩ := bind_eq_ok.mp h
    cases hv₁ : r₁.verdict with
    | some v =>
      simp only [hv₁] at h
      obtain ⟨rfl, rfl⟩ := Prod.mk.inj (Except.ok.inj h)
      exact steps_succ_of_verdict hstep hv₁ n
    | none =>
      simp only [hv₁] at h
      obtain ⟨⟨later, r₂⟩, hlater, h⟩ := bind_eq_ok.mp h
      obtain ⟨rfl, rfl⟩ := Prod.mk.inj (Except.ok.inj h)
      rw [steps_succ_of_no_verdict hstep hv₁, ih hlater hv₁ (by omega)]
      rfl

/-- On a well-formed grid, a run to the end shows what the replay says. -/
theorem exists_shows {world : Grid} (hw : world.WellFormed) (rules : Rules)
    (program : List Action) :
    ∃ t r, replay world rules program = .ok t ∧
      (start world rules program).runToEnd = .ok (t.events, r) ∧ r.Shows t :=
  @steps_eq_replayFrom (start world rules program) hw.tiled
    (Grid.not_onRim_of_inBounds hw.inBounds_start) rfl (coherent_start world rules program) _
    (Nat.lt_succ_self _)

/-- **A run to the end is a replay of the expanded program**: on a well-formed grid, both come to
an end, with the same verdict, events, trace, context and world.  The bound on the steps is none:
any larger number of steps leads to the same end. -/
theorem runToEnd_replays {world : Grid} (hw : world.WellFormed) (rules : Rules)
    (program : List Action) :
    ∃ t r, replay world rules program = .ok t ∧
      (start world rules program).runToEnd = .ok (t.events, r) ∧
      r.verdict = some t.verdict ∧ r.trace = t.trace ∧ r.context = t.context ∧
      r.world = t.world ∧
      ∀ n, (expansion program).length < n →
        steps n (start world rules program) = .ok (t.events, r) := by
  obtain ⟨t, r, hreplay, hsteps, hshows⟩ := exists_shows hw rules program
  exact ⟨t, r, hreplay, hsteps, hshows.verdict, hshows.trace, hshows.context, hshows.world,
    fun n hn => steps_of_le hsteps rfl hshows.verdict hn⟩

/-- The program that wins in the ruins, with its repeat of two. -/
theorem runToEnd_replays_ruins : Ruins.grid.WellFormed ∧
    ∃ t r, replay Ruins.grid .ruins (Action.ofNames Ruins.solution) = .ok t ∧
      (start Ruins.grid .ruins (Action.ofNames Ruins.solution)).runToEnd = .ok (t.events, r) ∧
      r.verdict = some t.verdict := by
  have hw : Ruins.grid.WellFormed := by decide +kernel
  obtain ⟨t, r, hreplay, hrun, hverdict, -⟩ :=
    runToEnd_replays hw .ruins (Action.ofNames Ruins.solution)
  exact ⟨hw, t, r, hreplay, hrun, hverdict⟩

end GridRun

end BlockCoding
