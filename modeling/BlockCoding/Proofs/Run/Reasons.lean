import BlockCoding.Proofs.Run.Asking
import BlockCoding.Proofs.Run.Walk

/-!
# Proofs/Run/Reasons — every verdict has its reason, and is the last word

`Justified` lists the verdicts that a grid run can come to, each with what holds of the run that
ends with it; a cause that is not listed does not occur.  Whatever step ends a run leaves it
justified (`Stepped.justified`); a refused move leaves everything as it was
(`Stepped.of_refusal`); and since there is one end only (`eq_of_verdict`), a run that ends
incomplete was won with none of its actions.  All of it is in `verdict_justified`.
-/

namespace BlockCoding

/-- Whether a cause is that a move was refused. -/
def FailCause.isRefusal : FailCause → Bool
  | .offGrid _ | .blocked _ _ => true
  | _ => false

/-- An action is refused for no other cause. -/
theorem Effect.isRefusal {rules : Rules} {world : Grid} {ctx : Context} {action : Action}
    {cause : FailCause} (h : Effect rules world ctx action (.rejected cause)) :
    cause.isRefusal = true := by
  cases h with
  | offGrid | blocked => rfl

/-- What the avatar cannot enter is a wall, or a gate that is closed. -/
theorem Tile.wall_or_gate_of_not_isPassable {tile : Tile} {gateOpen : Bool}
    (h : tile.isPassable gateOpen = false) : tile = .wall ∨ tile = .gate ∧ gateOpen = false := by
  cases tile with
  | wall => exact .inl rfl
  | gate => exact .inr ⟨rfl, h⟩
  | path | switch | collectible | goal => cases h

namespace GridRun

/-! ## What a verdict says -/

/-- **A verdict with its reason**, in the run that ends with it and has told `told`. -/
inductive Justified (rules : Rules) (program : List Action) (told : List Event) (r : GridRun) :
    Verdict → Prop where
  | win (won : rules.win.holds r.world r.context = .ok true) : Justified rules program told r .win
  /-- The cell that was to be entered is next to the avatar, and outside. -/
  | offGrid {cell : Cell} (adjacent : r.context.pos.Adjacent cell)
      (outside : r.world.inBounds cell = false) :
      Justified rules program told r (.fail (.offGrid cell))
  /-- The cell that was to be entered is next to the avatar, and cannot be. -/
  | blocked {cell : Cell} {tile : Tile} (adjacent : r.context.pos.Adjacent cell)
      (inside : r.world.inBounds cell = true) (there : r.world.tile cell = .ok (some tile))
      (closed : tile = .wall ∨ tile = .gate ∧ r.context.gateOpen = false) :
      Justified rules program told r (.fail (.blocked cell tile))
  | outOfEnergy (spent : r.context.energy = 0)
      (unwon : rules.win.holds r.world r.context = .ok false) :
      Justified rules program told r (.fail .outOfEnergy)
  /-- Every action of the program was executed, and has left its position in the trace. -/
  | incomplete (executed : actionsTold program told = expansion program)
      (length_trace : r.trace.length = (expansion program).length + 1) :
      Justified rules program told r (.fail .incomplete)

variable {g : Grid} {rules : Rules} {program : List Action} {told events : List Event}
  {r r' : GridRun}

/-- A run in step with its program that ends incomplete has executed all of it. -/
theorem InStep.justified (h : InStep rules program told r)
    (hend : r.verdict = some (.fail .incomplete)) :
    Justified rules program told r (.fail .incomplete) := by
  have htold := h.told_all hend
  refine .incomplete htold ?_
  rw [h.length_trace (.inr hend), htold]

/-- **A step that ends a run justifies its verdict.** -/
theorem Stepped.justified (h : InStep rules program told r) (hr : r.Sound) (hv : r.verdict = none)
    (hs : r.Stepped events r') {verdict : Verdict} (hend : r'.verdict = some verdict) :
    Justified rules program (told ++ events) r' verdict := by
  have hstep := h.stepped hr hv hs
  cases hs with
  | exhausted =>
    obtain rfl := Option.some.inj hend
    exact hstep.justified rfl
  | rejected cursor pending next refused =>
    obtain rfl := Option.some.inj hend
    cases r.rules.effect_of_perform hr.tiled r.context refused with
    | @offGrid _ heading move outside =>
      refine .offGrid (Grid.adjacent_offset hr.inside.pos heading) ?_
      obtain ⟨o, ho, hbounds⟩ := hr.tiled.tile_eq_ok (r.context.pos.offset heading)
      obtain rfl := Except.ok.inj (ho.symm.trans outside)
      exact hbounds.symm
    | @blocked _ heading tile move there closed =>
      exact .blocked (Grid.adjacent_offset hr.inside.pos heading) (Grid.inBounds_of_tile there)
        there (Tile.wall_or_gate_of_not_isPassable closed)
  | @ended index cursor action rest pending world context raised verdict' next done left due =>
    obtain rfl := Option.some.inj hend
    have hreasons := resume_verdictDue_some hr.tiled hv done due
    rw [h.rules_eq] at hreasons
    rcases hreasons with ⟨rfl, won⟩ | ⟨unwon, ⟨rfl, spent⟩ | ⟨rfl, -⟩⟩
    · exact .win won
    · exact .outOfEnergy spent unwon
    · exact hstep.justified rfl
  | continued =>
    rw [resume, hv] at hend
    cases hend

/-- However many steps a run takes, it keeps in step with its program, and a verdict is
justified. -/
theorem exists_justified (hg : g.WellFormed) (rules : Rules) (program : List Action) (n : Nat) :
    ∃ told q, stepTimes n (start g rules program) = .ok (told, q) ∧ q.Sound ∧
      InStep rules program told q ∧
      ∀ verdict, q.verdict = some verdict → Justified rules program told q verdict :=
  @Sound.exists_stepTimes_of_open
    (fun told r => InStep rules program told r ∧
      ∀ verdict, r.verdict = some verdict → Justified rules program told r verdict)
    (fun hr hv h hs => ⟨h.1.stepped hr hv hs, fun _ hend => hs.justified h.1 hr hv hend⟩)
    _ (sound_start hg rules program) [] ⟨.start g rules program, nofun⟩ n

/-! ## Refused moves -/

/-- A step that takes up a move that is refused fails with the cause. -/
theorem Stepped.verdict_of_refused (hr : r.Coherent) (hs : r.Stepped events r') {action : Action}
    {cause : FailCause} (hnext : r.next? = some action)
    (hrefused : r.rules.perform r.world r.context action = .ok (.rejected cause)) :
    r'.verdict = some (.fail cause) := by
  rw [next?_eq_head? hr] at hnext
  cases hs with
  | exhausted cursor executing empty =>
    rw [empty] at hnext
    cases hnext
  | rejected cursor pending next refused =>
    rw [next] at hnext
    obtain rfl := Option.some.inj hnext
    obtain ⟨⟩ := Except.ok.inj (refused.symm.trans hrefused)
    rfl
  | ended next done | continued next done =>
    rw [next] at hnext
    obtain rfl := Option.some.inj hnext
    cases Except.ok.inj (done.symm.trans hrefused)

/-- **A step that fails with a refusal has taken up a move that is refused**, and leaves everything
as it was. -/
theorem Stepped.of_refusal (hr : r.Sound) (hv : r.verdict = none) (hs : r.Stepped events r')
    {cause : FailCause} (hrefusal : cause.isRefusal = true)
    (hend : r'.verdict = some (.fail cause)) :
    (∃ action, r.next? = some action ∧
      r.rules.perform r.world r.context action = .ok (.rejected cause)) ∧
    r'.context = r.context ∧ r'.world = r.world ∧ r'.trace = r.trace := by
  cases hs with
  | exhausted =>
    obtain rfl := Verdict.fail.inj (Option.some.inj hend)
    cases hrefusal
  | @rejected cursor pending index action rest cause' next refused =>
    obtain rfl := Verdict.fail.inj (Option.some.inj hend)
    refine ⟨⟨action, ?_, refused⟩, rfl, rfl, rfl⟩
    rw [next?_eq_head? (hr.coherent hv), next]
    rfl
  | @ended index cursor action rest pending world context raised verdict next done left due =>
    obtain rfl := Option.some.inj hend
    rcases resume_verdictDue_some hr.tiled hv done due with
      ⟨hwin, -⟩ | ⟨-, ⟨hgone, -⟩ | ⟨hover, -⟩⟩
    · cases hwin
    · obtain rfl := Verdict.fail.inj hgone
      cases hrefusal
    · obtain rfl := Verdict.fail.inj hover
      cases hrefusal
  | continued =>
    rw [resume, hv] at hend
    cases hend

/-! ## The end -/

/-- **A run has one end**: wherever stepping finds it over, it has told and come to the same. -/
theorem eq_of_verdict {m n : Nat} {q q' : GridRun} {told told' : List Event}
    {verdict verdict' : Verdict} (hopen : r.verdict = none)
    (hm : stepTimes m r = .ok (told, q)) (hv : q.verdict = some verdict)
    (hn : stepTimes n r = .ok (told', q')) (hv' : q'.verdict = some verdict') :
    (told, q) = (told', q') := by
  rw [← steps_eq_stepTimes] at hm hn
  rcases Nat.le_total m n with hle | hle
  · exact Except.ok.inj ((steps_of_le hm hopen hv hle).symm.trans hn)
  · exact Except.ok.inj (hm.symm.trans (steps_of_le hn hopen hv' hle))

/-- **A run that ends incomplete was won with none of its actions.** -/
theorem unwon_of_incomplete (hg : g.WellFormed) {n k : Nat} {q q' : GridRun}
    {told told' : List Event} (hn : stepTimes n (start g rules program) = .ok (told, q))
    (hend : q.verdict = some (.fail .incomplete))
    (hk : stepTimes k (start g rules program) = .ok (told', q'))
    (hacted : actionsTold program told' ≠ []) :
    rules.win.holds q'.world q'.context = .ok false := by
  obtain ⟨told₁, q₁, hk₁, -, hstep, -⟩ := exists_justified hg rules program k
  obtain ⟨rfl, rfl⟩ := Prod.mk.inj (Except.ok.inj (hk₁.symm.trans hk))
  refine hstep.unwon ?_ hacted
  cases hv : q₁.verdict with
  | none => exact .inl hv
  | some verdict =>
    obtain ⟨-, rfl⟩ := Prod.mk.inj (eq_of_verdict rfl hk₁ hv hn hend)
    exact .inr hend

/-- **A verdict is true, and final.**  However many steps a run takes from the start of a
well-formed grid, a verdict is justified by the state there is and by what has been told, and any
number of further steps tells nothing and changes nothing.  If the program is over, the run was won
after none of its actions.  As long as there is no verdict, the next step fails with a refusal
exactly if it takes up a move that is refused so, and then context, world and trace are as
before. -/
theorem verdict_justified {g : Grid} (hg : g.WellFormed) (rules : Rules) (program : List Action)
    (n : Nat) :
    ∃ told q, stepTimes n (start g rules program) = .ok (told, q) ∧
      (∀ verdict, q.verdict = some verdict → Justified rules program told q verdict ∧
        ∀ m, stepTimes m q = .ok ([], q)) ∧
      (q.verdict = some (.fail .incomplete) →
        ∀ k before p, stepTimes k (start g rules program) = .ok (before, p) →
          actionsTold program before ≠ [] → rules.win.holds p.world p.context = .ok false) ∧
      (q.verdict = none → ∃ events r, q.step = .ok (events, r) ∧ ∀ cause,
        ((∃ action, q.next? = some action ∧
            rules.perform q.world q.context action = .ok (.rejected cause)) ↔
          cause.isRefusal = true ∧ r.verdict = some (.fail cause)) ∧
        (cause.isRefusal = true → r.verdict = some (.fail cause) →
          r.context = q.context ∧ r.world = q.world ∧ r.trace = q.trace)) := by
  obtain ⟨told, q, hn, hq, hinstep, hjustified⟩ := exists_justified hg rules program n
  refine ⟨told, q, hn, fun verdict hend => ⟨hjustified verdict hend, stepTimes_of_verdict hend⟩,
    fun hend k before p => unwon_of_incomplete hg hn hend, fun hv => ?_⟩
  obtain ⟨events, r, hstep, hstepped, -⟩ := hq.exists_stepped hv
  rw [← hinstep.rules_eq]
  refine ⟨events, r, hstep, fun cause => ⟨⟨?_, ?_⟩, fun hrefusal hend =>
    (hstepped.of_refusal hq hv hrefusal hend).2⟩⟩
  · rintro ⟨action, hnext, hrefused⟩
    exact ⟨(q.rules.effect_of_perform hq.tiled q.context hrefused).isRefusal,
      hstepped.verdict_of_refused (hq.coherent hv) hnext hrefused⟩
  · rintro ⟨hrefusal, hend⟩
    exact (hstepped.of_refusal hq hv hrefusal hend).1

/-- A walk in the ruins that leaves them over the lower edge with its fourth step. -/
theorem verdict_justified_ruins : Ruins.grid.WellFormed ∧
    ∃ told q, stepTimes 4 (start Ruins.grid .ruins [.step, .step, .turnRight, .step, .collect])
        = .ok (told, q) ∧
      q.verdict = some (.fail (.offGrid ⟨2, 8⟩)) ∧ q.context.pos.Adjacent ⟨2, 8⟩ ∧
      q.world.inBounds ⟨2, 8⟩ = false ∧ stepTimes 3 q = .ok ([], q) ∧
      ∃ before p, stepTimes 3 (start Ruins.grid .ruins
          [.step, .step, .turnRight, .step, .collect]) = .ok (before, p) ∧
        q.context = p.context ∧ q.world = p.world ∧ q.trace = p.trace := by
  have hw : Ruins.grid.WellFormed := by decide +kernel
  obtain ⟨told, q, hn, hjustified, -⟩ :=
    verdict_justified hw .ruins [.step, .step, .turnRight, .step, .collect] 4
  obtain ⟨before, p, hp, -, -, hnext⟩ :=
    verdict_justified hw .ruins [.step, .step, .turnRight, .step, .collect] 3
  have hend : (stepTimes 4 (start Ruins.grid .ruins
      [.step, .step, .turnRight, .step, .collect])).map (·.2.verdict)
        = .ok (some (.fail (.offGrid ⟨2, 8⟩))) := by decide +kernel
  have hopen : (stepTimes 3 (start Ruins.grid .ruins
      [.step, .step, .turnRight, .step, .collect])).map (·.2.verdict) = .ok none := by
    decide +kernel
  rw [hn] at hend
  rw [hp] at hopen
  have hverdict : q.verdict = some (.fail (.offGrid ⟨2, 8⟩)) := Except.ok.inj hend
  obtain ⟨events, r, hstep, hsame⟩ := hnext (Except.ok.inj hopen)
  have hlast := stepTimes_concat hp hstep
  obtain ⟨-, rfl⟩ := Prod.mk.inj (Except.ok.inj (hlast.symm.trans hn))
  obtain ⟨hreason, hstays⟩ := hjustified _ hverdict
  cases hreason with
  | offGrid adjacent outside =>
    exact ⟨hw, told, r, hn, hverdict, adjacent, outside, hstays 3, before, p, hp,
      (hsame _).2 rfl hverdict⟩

end GridRun

end BlockCoding
