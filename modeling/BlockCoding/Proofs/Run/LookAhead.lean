import BlockCoding.Proofs.Run.Stepping

/-!
# Proofs/Run/LookAhead — what is seen ahead is what is executed, but for repeats of no times

Whether a run goes on after a step, and how long a session waits for the next one, is decided by
`peek?`, which looks at the program without executing anything.  It sees what `next?` will take up,
except before a repeat block of no times: there it reports the body, and the step skips both
(`peek?_eq_next?`, `FacesIdle.peek?_eq`).  So a run goes on only if there is something to execute,
and is incomplete with the step of its last action, as long as it faces no such block
(`lookAhead_agrees`); where it faces one, it may go on to execute nothing (`lookAhead_misses`).
-/

namespace BlockCoding

namespace GridRun

/-- **The action that the next step executes**: the one that it fetches. -/
def next? (r : GridRun) : Option Action := r.fetch.1

/-- **A step executes an action**: it announces the block, and what follows are the events, the
world and the context that performing the action leads to, and the verdict if there is one. -/
inductive Executes (r : GridRun) (action : Action) (events : List Event) (r' : GridRun) : Prop where
  | rejected {index : Nat} {cause : FailCause}
      (refused : r.rules.perform r.world r.context action = .ok (.rejected cause))
      (told : events = [.executing index, .finished (.fail cause)])
      (world_eq : r'.world = r.world) (context_eq : r'.context = r.context)
  | performed {index : Nat} {world : Grid} {context : Context} {raised : List Event}
      (done : r.rules.perform r.world r.context action = .ok (.performed world context raised))
      (told : events = .executing index :: raised ++ r'.verdict.toList.map Event.finished)
      (world_eq : r'.world = world) (context_eq : r'.context = context)

/-- The cursor stands on a repeat block of no times that has a body. -/
def FacesIdle (r : GridRun) : Prop :=
  ∃ body rest, r.program.drop r.cursor = .repeatNext 0 :: body :: rest

/-- A program without repeats of no times never faces one. -/
theorem not_facesIdle_of_forall_mem {r : GridRun} (h : ∀ a ∈ r.program, a ≠ .repeatNext 0) :
    ¬ r.FacesIdle := by
  rintro ⟨body, rest, hdrop⟩
  have hmem : .repeatNext 0 ∈ r.program.drop r.cursor := by
    rw [hdrop]
    exact List.mem_cons_self
  exact h (.repeatNext 0) (List.mem_of_mem_drop hmem) rfl

/-- A pending repeat is of more than one time. -/
theorem FacesIdle.pending_eq {r : GridRun} (hr : r.Coherent) (h : r.FacesIdle) :
    r.pending = none := by
  cases hp : r.pending with
  | none => rfl
  | some p =>
    obtain ⟨n, hhead, -, -, hlt, -⟩ := hr p hp
    obtain ⟨body, rest, hdrop⟩ := h
    rw [← List.head?_drop, hdrop] at hhead
    obtain rfl : 0 = n := Action.repeatNext.inj (Option.some.inj hhead)
    exact absurd hlt UInt8.not_lt_zero

end GridRun

/-! ## Looking and fetching -/

/-- What is seen first is what a program comes to first, unless it starts with a repeat of no
times. -/
theorem peekFrom_eq_head? (i : Nat) {program : List Action}
    (h : ∀ body rest, program ≠ .repeatNext 0 :: body :: rest) :
    peekFrom program = (expansionFrom i program).head?.map Prod.snd := by
  fun_cases peekFrom program with
  | case1 => rfl
  | case2 n body rest =>
    have hn : n ≠ 0 := fun h0 => h body rest (by rw [h0])
    rw [expansionFrom_repeat, replicate_of_ne_zero hn]
    rfl
  | case3 n => rfl
  | case4 action rest hbody hlast =>
    rw [expansionFrom_plain i rest (ne_repeatNext hbody hlast)]
    rfl

namespace GridRun

/-- A step takes up the first of the actions that remain. -/
theorem next?_eq_head? {r : GridRun} (hr : r.Coherent) :
    r.next? = r.remaining.head?.map Prod.snd := (fetch_follows hr).action_eq

/-- **What is seen ahead is what the next step executes**, unless the run faces a repeat of no
times. -/
theorem peek?_eq_next? {r : GridRun} (hv : r.verdict = none) (hr : r.Coherent)
    (h : ¬ r.FacesIdle) : r.peek? = r.next? := by
  rw [next?_eq_head? hr, peek?, hv]
  cases hp : r.pending with
  | none =>
    rw [remaining_of_pending_none hp]
    exact peekFrom_eq_head? r.cursor fun body rest hdrop => h ⟨body, rest, hdrop⟩
  | some p =>
    rw [remaining_of_pending hr hp]
    rfl

/-- **Before a repeat of no times, its body is seen**, and what comes after the body is executed. -/
theorem FacesIdle.peek?_eq {r : GridRun} (hv : r.verdict = none) (hr : r.Coherent)
    (h : r.FacesIdle) :
    r.peek? = r.program[r.cursor + 1]? ∧ r.next? =
      (expansionFrom (r.cursor + 2) (r.program.drop (r.cursor + 2))).head?.map Prod.snd := by
  have hp := h.pending_eq hr
  obtain ⟨body, rest, hdrop⟩ := h
  have hbody : r.program[r.cursor + 1]? = some body := getElem?_add_of_drop hdrop 1
  have hrest : r.program.drop (r.cursor + 2) = rest := drop_add_of_drop hdrop 2
  constructor
  · rw [peek?, hv, hp, hdrop, hbody]
    rfl
  · rw [next?_eq_head? hr, remaining_of_pending_none hp, hdrop, hrest]
    rfl

end GridRun

/-! ## Going on -/

/-- A refused move is no lack of actions. -/
theorem Effect.cause_ne_incomplete {rules : Rules} {world : Grid} {ctx : Context} {action : Action}
    {cause : FailCause} (h : Effect rules world ctx action (.rejected cause)) :
    cause ≠ .incomplete := by
  cases h with
  | offGrid | blocked => nofun

namespace GridRun

/-- A run for which no verdict is due sees something ahead. -/
theorem isSome_peek?_of_verdictDue {r : GridRun} (hw : r.world.Tiled)
    (h : r.verdictDue = .ok none) : r.peek?.isSome = true := by
  obtain ⟨won, -, hdue⟩ := verdictDue_eq hw
  have hnone := Except.ok.inj (hdue.symm.trans h)
  cases hpeek : r.peek? with
  | some action => rfl
  | none =>
    rw [hpeek] at hnone
    split at hnone
    · cases hnone
    · split at hnone <;> cases hnone

variable {g : Grid} {rules : Rules} {program : List Action} {r r' : GridRun} {events : List Event}

/-- A run that goes on tells no verdict. -/
theorem told_resume (r : GridRun) (hv : r.verdict = none) (index cursor : Nat)
    (pending : Option PendingRepeat) (world : Grid) (context : Context) (raised : List Event) :
    Event.executing index :: raised = .executing index :: raised
      ++ (r.resume index cursor pending world context).verdict.toList.map Event.finished := by
  rw [resume, hv]
  exact (List.append_nil _).symm

/-- A step executes the action that it takes up, … -/
theorem Stepped.executes (hr : r.Coherent) (hv : r.verdict = none) (hs : r.Stepped events r')
    {action : Action} (hnext : r.next? = some action) : r.Executes action events r' := by
  rw [next?_eq_head? hr] at hnext
  cases hs with
  | exhausted cursor executing empty =>
    rw [empty] at hnext
    cases hnext
  | rejected cursor pending next refused =>
    rw [next] at hnext
    obtain rfl := Option.some.inj hnext
    exact .rejected refused rfl rfl rfl
  | ended next done =>
    rw [next] at hnext
    obtain rfl := Option.some.inj hnext
    exact .performed done rfl rfl rfl
  | @continued index cursor _ _ pending world context raised next done =>
    rw [next] at hnext
    obtain rfl := Option.some.inj hnext
    exact .performed done (r.told_resume hv index cursor pending world context raised) rfl rfl

/-- …and nothing if it takes up none. -/
theorem Stepped.events_of_next?_none (hr : r.Coherent) (hs : r.Stepped events r')
    (hnext : r.next? = none) : events = [.finished (.fail .incomplete)] := by
  rw [next?_eq_head? hr] at hnext
  cases hs with
  | exhausted => rfl
  | rejected cursor pending next =>
    rw [next] at hnext
    cases hnext
  | ended next | continued next =>
    rw [next] at hnext
    cases hnext

/-- **A run that goes on sees something ahead.** -/
theorem Stepped.isSome_peek? (hr : r.Sound) (hs : r.Stepped events r') (hv : r'.verdict = none) :
    r'.peek?.isSome = true := by
  cases hs with
  | exhausted | rejected | ended => cases hv
  | continued next done left coherent due =>
    exact isSome_peek?_of_verdictDue (tiled_of_perform hr.tiled done) due

/-- A run of a program without a verdict has just been started, or sees something ahead. -/
structure Going (g : Grid) (rules : Rules) (program : List Action) (r : GridRun) : Prop where
  program_eq : r.program = program
  ahead : r.verdict = none → r = start g rules program ∨ r.peek?.isSome = true

theorem Going.stepped (h : Going g rules program r) (hr : r.Sound) (hs : r.Stepped events r') :
    Going g rules program r' where
  program_eq := by
    cases hs with
    | exhausted | rejected | ended | continued => exact h.program_eq
  ahead hv := .inr (hs.isSome_peek? hr hv)

/-- **Only the step of the last action leaves a run incomplete**, unless there was none at all. -/
theorem Going.last_of_incomplete (h : Going g rules program r) (hr : r.Sound)
    (hv : r.verdict = none) (hidle : ¬ r.FacesIdle) (hs : r.Stepped events r')
    (hend : r'.verdict = some (.fail .incomplete)) :
    expansion program = [] ∨ ∃ index action, r.remaining = [(index, action)] ∧
      events.head? = some (.executing index) := by
  cases hs with
  | exhausted cursor executing empty =>
    have hnext : r.next? = none := by
      rw [next?_eq_head? (hr.coherent hv), empty]
      rfl
    -- Nothing remains, and yet something was seen ahead: only a fresh run has an excuse.
    rcases h.ahead hv with rfl | hsome
    · exact .inl empty
    · rw [peek?_eq_next? hv (hr.coherent hv) hidle, hnext] at hsome
      cases hsome
  | rejected cursor pending next refused =>
    have hcause := Verdict.fail.inj (Option.some.inj hend)
    exact absurd hcause (r.rules.effect_of_perform hr.tiled r.context refused).cause_ne_incomplete
  | @ended index cursor action rest pending world context raised verdict next done left due =>
    obtain rfl := Option.some.inj hend
    rcases resume_verdictDue_some hr.tiled hv done due with
      ⟨hwin, -⟩ | ⟨-, ⟨hgone, -⟩ | ⟨-, -, hempty⟩⟩
    · cases hwin
    · cases hgone
    · obtain rfl := left.symm.trans hempty
      exact .inr ⟨index, action, next, rfl⟩
  | continued =>
    rw [resume, hv] at hend
    cases hend

/-- **What is seen ahead is what is executed**, in every state that a run reaches from the start of
a well-formed grid without a verdict, unless it faces a repeat of no times; then the body of that
repeat is seen, and what comes after the body is executed.  If there is nothing to execute, the next
step only finds the run incomplete.  A program without such repeats never faces one.  A run that
goes on after a step, and then faces none, has something left to execute; and one that faces none is
incomplete with the step of its last action, or has no action at all. -/
theorem lookAhead_agrees {g : Grid} (hg : g.WellFormed) (rules : Rules) (program : List Action)
    (n : Nat) :
    ∃ told q, stepTimes n (start g rules program) = .ok (told, q) ∧
      ((∀ a ∈ program, a ≠ .repeatNext 0) → ¬ q.FacesIdle) ∧
      (q.verdict = none →
        (¬ q.FacesIdle → q.peek? = q.next?) ∧
        (q.FacesIdle → q.peek? = q.program[q.cursor + 1]? ∧ q.next? =
          (expansionFrom (q.cursor + 2) (q.program.drop (q.cursor + 2))).head?.map Prod.snd) ∧
        ∃ events r, q.step = .ok (events, r) ∧
          (∀ action, q.next? = some action → q.Executes action events r) ∧
          (q.next? = none → events = [.finished (.fail .incomplete)]) ∧
          (r.verdict = none → ¬ r.FacesIdle → r.next?.isSome = true) ∧
          (r.verdict = some (.fail .incomplete) → ¬ q.FacesIdle → expansion program = [] ∨
            ∃ index action, q.remaining = [(index, action)] ∧
              events.head? = some (.executing index))) := by
  have hsound := sound_start hg rules program
  have hgoing : Going g rules program (start g rules program) := ⟨rfl, fun _ => .inl rfl⟩
  obtain ⟨told, q, hsteps, hq, h⟩ := @Sound.exists_stepTimes (fun _ r => Going g rules program r)
    (fun hr h hs => h.stepped hr hs) _ hsound [] hgoing n
  refine ⟨told, q, hsteps, fun hall => not_facesIdle_of_forall_mem (by rwa [h.program_eq]),
    fun hv => ⟨peek?_eq_next? hv (hq.coherent hv), FacesIdle.peek?_eq hv (hq.coherent hv), ?_⟩⟩
  obtain ⟨events, r, hstep, hstepped, hr⟩ := hq.exists_stepped hv
  refine ⟨events, r, hstep, fun action => hstepped.executes (hq.coherent hv) hv,
    hstepped.events_of_next?_none (hq.coherent hv), fun hnone hidle => ?_,
    fun hend hidle => h.last_of_incomplete hq hv hidle hstepped hend⟩
  rw [← peek?_eq_next? hnone (hr.coherent hnone) hidle]
  exact hstepped.isSome_peek? hq hnone

/-- The winning program in the ruins, in the middle of its repeat of two. -/
theorem lookAhead_agrees_ruins :
    Ruins.grid.WellFormed ∧ (∀ a ∈ Action.ofNames Ruins.solution, a ≠ .repeatNext 0) ∧
    ∃ told q, stepTimes 16 (start Ruins.grid .ruins (Action.ofNames Ruins.solution))
        = .ok (told, q) ∧
      q.verdict = none ∧ q.pending.isSome = true ∧ ¬ q.FacesIdle ∧ q.peek? = some .step ∧
      q.next? = some .step := by
  have hw : Ruins.grid.WellFormed := by decide +kernel
  have hall : ∀ a ∈ Action.ofNames Ruins.solution, a ≠ .repeatNext 0 := by decide +kernel
  obtain ⟨told, q, hsteps, hfaces, hagrees⟩ :=
    lookAhead_agrees hw .ruins (Action.ofNames Ruins.solution) 16
  have hstate : (stepTimes 16 (start Ruins.grid .ruins (Action.ofNames Ruins.solution))).map
      (fun s => (s.2.verdict, s.2.pending.isSome, s.2.peek?)) = .ok (none, true, some .step) := by
    decide +kernel
  rw [hsteps] at hstate
  obtain ⟨hv, hpending, hpeek⟩ := by simpa using Except.ok.inj hstate
  have hsame := (hagrees hv).1 (hfaces hall)
  exact ⟨hw, hall, told, q, hsteps, hv, hpending, hfaces hall, hpeek, hsame.symm.trans hpeek⟩

/-- **What is seen ahead need not be executed.**  After its first move along a corridor, a run goes
on since it sees the move that is repeated no times; but the next step executes nothing, and only
then is the run incomplete. -/
theorem lookAhead_misses :
    ∃ told q r, (Grid.filled 4 1 .path ⟨0, 0⟩ .right).WellFormed ∧
      stepTimes 1 (start (Grid.filled 4 1 .path ⟨0, 0⟩ .right) .maze
        [.moveRight, .repeatNext 0, .moveRight]) = .ok (told, q) ∧
      q.verdict = none ∧ q.peek? = some .moveRight ∧ q.next? = none ∧
      q.step = .ok ([.finished (.fail .incomplete)], r) :=
  ⟨_, _, _, by decide +kernel, rfl, rfl, rfl, rfl, rfl⟩

end GridRun

end BlockCoding
