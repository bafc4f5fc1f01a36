import BlockCoding.Proofs.Run.Conservation
import Mathlib.Data.List.Destutter

/-!
# Proofs/Run/Telling — the events of a run tell all of it

A presentation sees events only.  `Context.hear` takes one event into a context, and hearing all
events of a run, from its initial context on, leads to the context there is now, but for the energy,
which no event tells (`Telling.heard`).  An action raises exactly the events that it takes to hear
what it did (`Effect.heard`); hence every step does, hence every run (`events_tell`).
-/

namespace BlockCoding

/-! ## Hearing events -/

/-- **What a context becomes by an event that is heard.** -/
def Context.hear (ctx : Context) : Event → Context
  | .moved target => { ctx with pos := target }
  | .turned heading => { ctx with heading }
  | .collected cell _ => { ctx with collected := ctx.collected.insert cell }
  | .gateOpened => { ctx with gateOpen := true }
  | _ => ctx

/-- The cell that an event tells a move to. -/
def Event.move? : Event → Option Cell
  | .moved target => some target
  | _ => none

/-- The heading that an event tells a turn to. -/
def Event.turn? : Event → Option Heading
  | .turned heading => some heading
  | _ => none

/-- The verdict that an event tells. -/
def Event.verdict? : Event → Option Verdict
  | .finished verdict => some verdict
  | _ => none

/-- The targets of the moves that events tell of, in order. -/
def movesTold (events : List Event) : List Cell := events.filterMap Event.move?

/-- The headings that events tell turns to, in order. -/
def turnsTold (events : List Event) : List Heading := events.filterMap Event.turn?

/-- The verdicts that events tell, in order. -/
def verdictsTold (events : List Event) : List Verdict := events.filterMap Event.verdict?

theorem movesTold_append (told events : List Event) :
    movesTold (told ++ events) = movesTold told ++ movesTold events := List.filterMap_append

theorem verdictsTold_append (told events : List Event) :
    verdictsTold (told ++ events) = verdictsTold told ++ verdictsTold events :=
  List.filterMap_append

/-- The cells of the pickups told are those that an event says were collected. -/
theorem mem_pickupsTold {events : List Event} {c : Cell} :
    c ∈ (pickupsTold events).map Prod.fst ↔ ∃ total, .collected c total ∈ events := by
  simp only [pickupsTold, List.mem_map, List.mem_filterMap, Prod.exists, exists_and_right,
    exists_eq_right]
  constructor
  · rintro ⟨total, event, hevent, h⟩
    cases event <;> cases h
    exact ⟨total, hevent⟩
  · rintro ⟨total, h⟩
    exact ⟨total, _, h, rfl⟩

/-- Whoever hears a list of events is at the target of the last move, … -/
theorem pos_foldl_hear (events : List Event) (ctx : Context) :
    (events.foldl Context.hear ctx).pos = (movesTold events).getLast?.getD ctx.pos := by
  induction events generalizing ctx with
  | nil => rfl
  | cons event events ih =>
    rw [List.foldl_cons, ih]
    cases event <;> simp [movesTold, Event.move?, Context.hear, List.getLast?_cons]

/-- …faces where the last turn went, … -/
theorem heading_foldl_hear (events : List Event) (ctx : Context) :
    (events.foldl Context.hear ctx).heading = (turnsTold events).getLast?.getD ctx.heading := by
  induction events generalizing ctx with
  | nil => rfl
  | cons event events ih =>
    rw [List.foldl_cons, ih]
    cases event <;> simp [turnsTold, Event.turn?, Context.hear, List.getLast?_cons]

/-- …has collected what every pickup took, … -/
theorem mem_collected_foldl_hear (events : List Event) (ctx : Context) (c : Cell) :
    c ∈ (events.foldl Context.hear ctx).collected.cells ↔
      c ∈ (pickupsTold events).map Prod.fst ∨ c ∈ ctx.collected.cells := by
  induction events generalizing ctx with
  | nil => simp [pickupsTold]
  | cons event events ih =>
    rw [List.foldl_cons, ih]
    cases event <;>
      simp [pickupsTold, Event.pickup?, Context.hear, CellSet.mem_insert, or_left_comm, or_assoc]

/-- …and has the gates open if they were so, or an event said so. -/
theorem gateOpen_foldl_hear (events : List Event) (ctx : Context) :
    (events.foldl Context.hear ctx).gateOpen = true ↔
      .gateOpened ∈ events ∨ ctx.gateOpen = true := by
  induction events generalizing ctx with
  | nil => simp
  | cons event events ih =>
    rw [List.foldl_cons, ih, List.mem_cons]
    cases event <;> simp [Context.hear]

/-! ## What an action tells -/

section Telling

variable {rules : Rules} {world world' : Grid} {ctx ctx' : Context} {raised : List Event}

/-- The same context with any energy. -/
private theorem PickedUp.heard (h : PickedUp world ctx world' ctx' raised) (energy : UInt32) :
    raised.foldl Context.hear { ctx with energy } = { ctx' with energy } := by
  cases h with
  | taken | again | nothing => rfl

private theorem Gathered.heard {occasion : Pickup}
    (h : Gathered rules occasion world ctx world' ctx' raised) (energy : UInt32) :
    raised.foldl Context.hear { ctx with energy } = { ctx' with energy } := by
  cases h with
  | off => rfl
  | on same pick => exact pick.heard energy

/-- **An action tells what it did to the context**, its cost apart. -/
theorem Effect.heard {action : Action}
    (h : Effect rules world ctx action (.performed world' ctx' raised)) (energy : UInt32) :
    raised.foldl Context.hear { ctx with energy } = { ctx' with energy } := by
  cases h with
  | moved move there free pick => exact pick.heard energy
  | collected pick => exact pick.heard energy
  | turned | opened | sensed | scanned | inert => rfl

/-- Picking up tells of no move, and of no verdict. -/
private theorem Gathered.told_eq {occasion : Pickup}
    (h : Gathered rules occasion world ctx world' ctx' raised) :
    movesTold raised = [] ∧ verdictsTold raised = [] := by
  constructor
  all_goals
    refine List.filterMap_eq_nil_iff.mpr fun event hmem => ?_
    have hcollected := h.isCollected_of_mem hmem
    cases event <;> first | rfl | cases hcollected

/-- The neighbours of a cell are other cells. -/
theorem Cell.offset_ne (c : Cell) (h : Heading) : c.offset h ≠ c := by
  intro heq
  obtain ⟨hx, hy⟩ := Cell.mk.inj heq
  cases h <;> simp only [Heading.delta] at hx hy <;> grind

/-- **An action tells of one move if it moves, and of none if it stays**; a move never ends where
it started. -/
theorem Effect.movesTold_eq {action : Action}
    (h : Effect rules world ctx action (.performed world' ctx' raised)) :
    movesTold raised = if ctx.pos = ctx'.pos then [] else [ctx'.pos] := by
  cases h with
  | @moved _ heading _ _ _ picked move there free pick =>
    have hpos : ctx'.pos = ctx.pos.offset heading := by rw [pick.context_eq]; rfl
    rw [hpos, if_neg (Cell.offset_ne _ _).symm]
    exact congrArg (ctx.pos.offset heading :: ·) pick.told_eq.1
  | collected pick =>
    rw [Context.spend_pos, pick.context_eq, if_pos rfl]
    exact pick.told_eq.1
  | turned | opened | sensed | scanned | inert => exact (if_pos rfl).symm

/-- No action tells a verdict. -/
theorem Effect.verdictsTold_eq {action : Action}
    (h : Effect rules world ctx action (.performed world' ctx' raised)) :
    verdictsTold raised = [] := by
  cases h with
  | moved move there free pick => exact pick.told_eq.2
  | collected pick => exact pick.told_eq.2
  | turned | opened | sensed | scanned | inert => rfl

end Telling

/-! ## A trace without its stays -/

private theorem destutter'_concat {α : Type} [DecidableEq α] (a b : α) (l : List α) :
    (l ++ [b]).destutter' (· ≠ ·) a
      = l.destutter' (· ≠ ·) a
        ++ if (a :: l).getLast (List.cons_ne_nil a l) = b then [] else [b] := by
  induction l generalizing a with
  | nil => by_cases h : a = b <;> simp [List.destutter', h]
  | cons c l ih =>
    rw [List.cons_append, List.destutter'_cons, List.destutter'_cons, List.getLast_cons_cons]
    by_cases h : a = c
    · subst h
      rw [if_neg (not_not.mpr rfl), if_neg (not_not.mpr rfl), ih]
    · rw [if_pos h, if_pos h, ih, List.cons_append]

/-- One more element of a list counts, once adjacent repetitions are dropped, unless it repeats the
last one. -/
theorem destutter_concat {α : Type} [DecidableEq α] {l : List α} {a : α}
    (h : l.getLast? = some a) (b : α) :
    (l ++ [b]).destutter (· ≠ ·) = l.destutter (· ≠ ·) ++ if a = b then [] else [b] := by
  cases l with
  | nil => cases h
  | cons c l =>
    rw [List.getLast?_eq_some_getLast (List.cons_ne_nil c l)] at h
    rw [← Option.some.inj h]
    exact destutter'_concat c b l

/-! ## What a run has told -/

namespace GridRun

/-- **A run that the events told so far give away**, from the grid and the rules it started
with. -/
structure Telling (g : Grid) (rules : Rules) (told : List Event) (r : GridRun) : Prop where
  /-- Hearing all events leads to the context, but for the energy. -/
  heard : told.foldl Context.hear (.initial g rules)
    = { r.context with energy := rules.startEnergy }
  trace_getLast : r.trace.getLast? = some r.context.pos
  /-- Without the steps that stay, the trace is the start and the moves. -/
  trace_eq : r.trace.destutter (· ≠ ·) = g.start :: movesTold told
  /-- The verdict is told once. -/
  verdicts_eq : verdictsTold told = r.verdict.toList
  /-- …and last. -/
  getLast_eq : ∀ verdict, r.verdict = some verdict → told.getLast? = some (.finished verdict)

namespace Telling

variable {g : Grid} {rules : Rules} {told events : List Event} {r r' : GridRun}

theorem start (g : Grid) (rules : Rules) (program : List Action) :
    Telling g rules [] (start g rules program) where
  heard := rfl
  trace_getLast := rfl
  trace_eq := rfl
  verdicts_eq := rfl
  getLast_eq _ h := by cases h

/-- An action that is told leaves a run that is told. -/
theorem act (h : Telling g rules told r) (hr : r.Sound) (hv : r.verdict = none)
    (index cursor : Nat) (pending : Option PendingRepeat) {action : Action} {world : Grid}
    {context : Context} {raised : List Event}
    (done : r.rules.perform r.world r.context action = .ok (.performed world context raised)) :
    Telling g rules (told ++ .executing index :: raised)
      (r.resume index cursor pending world context) := by
  have heffect := r.rules.effect_of_perform hr.tiled r.context done
  refine ⟨?_, List.getLast?_concat, ?_, ?_, fun verdict hverdict => ?_⟩
  · rw [List.foldl_append, h.heard, List.foldl_cons]
    exact heffect.heard rules.startEnergy
  · rw [resume, destutter_concat h.trace_getLast, h.trace_eq, List.append_cons, movesTold_append,
      movesTold_append, ← heffect.movesTold_eq]
    exact congrArg (g.start :: · ++ movesTold raised) (List.append_nil _).symm
  · rw [List.append_cons, verdictsTold_append, verdictsTold_append, h.verdicts_eq,
      heffect.verdictsTold_eq, List.append_nil]
    exact List.append_nil _
  · rw [resume, hv] at hverdict
    cases hverdict

/-- The end of a run is told by its verdict. -/
theorem finish (h : Telling g rules told r) (hv : r.verdict = none) {verdict : Verdict}
    (hcontext : r'.context = r.context) (htrace : r'.trace = r.trace)
    (hverdict : r'.verdict = some verdict) :
    Telling g rules (told ++ [.finished verdict]) r' where
  heard := by
    rw [List.foldl_append, h.heard, hcontext]
    rfl
  trace_getLast := by rw [htrace, hcontext, h.trace_getLast]
  trace_eq := by
    rw [htrace, h.trace_eq, movesTold_append]
    exact congrArg (g.start :: ·) (List.append_nil _).symm
  verdicts_eq := by
    rw [verdictsTold_append, h.verdicts_eq, hv, hverdict]
    rfl
  getLast_eq v hv' := by
    rw [List.getLast?_concat, ← Option.some.inj (hverdict.symm.trans hv')]

/-- An announcement that nothing follows from changes nothing. -/
theorem announce (h : Telling g rules told r) (hv : r.verdict = none) (index : Nat) :
    Telling g rules (told ++ [.executing index]) r where
  heard := by
    rw [List.foldl_append, h.heard]
    rfl
  trace_getLast := h.trace_getLast
  trace_eq := by
    rw [h.trace_eq, movesTold_append]
    exact congrArg (g.start :: ·) (List.append_nil _).symm
  verdicts_eq := by
    rw [verdictsTold_append, h.verdicts_eq]
    exact List.append_nil _
  getLast_eq v hv' := by
    rw [hv] at hv'
    cases hv'

/-- **Every step tells what it did**, the one that ends the run included. -/
theorem stepped (h : Telling g rules told r) (hr : r.Sound) (hv : r.verdict = none)
    (hs : r.Stepped events r') : Telling g rules (told ++ events) r' := by
  cases hs with
  | exhausted => exact h.finish hv rfl rfl rfl
  | rejected cursor pending next refused =>
    rw [List.append_cons]
    exact (h.announce hv _).finish hv rfl rfl rfl
  | @ended index cursor _ _ pending _ _ _ _ next done =>
    rw [← List.append_assoc]
    exact (h.act hr hv index cursor pending done).finish hv rfl rfl rfl
  | @continued index cursor _ _ pending _ _ _ next done =>
    exact h.act hr hv index cursor pending done

end Telling

/-- **The events of a run tell all of it.**  However many steps a run takes from the start of a
well-formed grid, hearing its events leads from the initial context to the context there is, but for
the energy: the avatar is at the target of the last move and faces where the last turn went, it has
collected what the pickups took, and the gates are open if an event said so.  The trace without the
steps that stayed is the start and the targets of the moves.  A verdict is told exactly if there is
one, once, as the last event. -/
theorem events_tell {g : Grid} (hg : g.WellFormed) (rules : Rules) (program : List Action)
    (n : Nat) :
    ∃ events r, stepTimes n (start g rules program) = .ok (events, r) ∧
      events.foldl Context.hear (.initial g rules)
        = { r.context with energy := rules.startEnergy } ∧
      r.context.pos = (movesTold events).getLast?.getD g.start ∧
      r.context.heading = (turnsTold events).getLast?.getD g.startHeading ∧
      (∀ c, c ∈ r.context.collected.cells ↔ ∃ total, .collected c total ∈ events) ∧
      (r.context.gateOpen = true ↔ .gateOpened ∈ events) ∧
      r.trace.destutter (· ≠ ·) = g.start :: movesTold events ∧
      verdictsTold events = r.verdict.toList ∧
      ∀ verdict, r.verdict = some verdict → events.getLast? = some (.finished verdict) := by
  obtain ⟨events, r, hsteps, -, h⟩ := (sound_start hg rules program).exists_stepTimes_of_open
    (fun hr hv h hs => h.stepped hr hv hs) (Telling.start g rules program) n
  rw [List.nil_append] at h
  have hpos := pos_foldl_hear events (.initial g rules)
  have hheading := heading_foldl_hear events (.initial g rules)
  have hcollected := mem_collected_foldl_hear events (.initial g rules)
  have hgate := gateOpen_foldl_hear events (.initial g rules)
  rw [h.heard] at hpos hheading hcollected hgate
  refine ⟨events, r, hsteps, h.heard, hpos, hheading, fun c => ?_, ?_, h.trace_eq, h.verdicts_eq,
    h.getLast_eq⟩
  · rw [← mem_pickupsTold]
    exact (hcollected c).trans (or_iff_left List.not_mem_nil)
  · exact hgate.trans (or_iff_left Bool.false_ne_true)

/-- The whole of the winning program in the ruins, with its turns, its crystals and its gate. -/
theorem events_tell_ruins : Ruins.grid.WellFormed ∧
    ∃ events r, stepTimes 24 (start Ruins.grid .ruins (Action.ofNames Ruins.solution))
        = .ok (events, r) ∧
      r.verdict = some .win ∧ r.context.pos = ⟨7, 0⟩ ∧
      events.foldl Context.hear (.initial Ruins.grid .ruins) = { r.context with energy := 100 } ∧
      (movesTold events).getLast?.getD Ruins.grid.start = ⟨7, 0⟩ ∧
      r.trace.destutter (· ≠ ·) = Ruins.grid.start :: movesTold events ∧
      verdictsTold events = [.win] ∧ events.getLast? = some (.finished .win) := by
  have hw : Ruins.grid.WellFormed := by decide +kernel
  obtain ⟨events, r, hsteps, hheard, hpos, -, -, -, htrace, hverdicts, hlast⟩ :=
    events_tell hw .ruins (Action.ofNames Ruins.solution) 24
  have hend : (stepTimes 24 (start Ruins.grid .ruins (Action.ofNames Ruins.solution))).map
      (fun s => (s.2.verdict, s.2.context.pos)) = .ok (some .win, ⟨7, 0⟩) := by decide +kernel
  rw [hsteps] at hend
  obtain ⟨hverdict, hgoal⟩ := Prod.mk.inj (Except.ok.inj hend)
  exact ⟨hw, events, r, hsteps, hverdict, hgoal, hheard, hpos.symm.trans hgoal, htrace,
    by rw [hverdicts, hverdict]; rfl, hlast .win hverdict⟩

end GridRun

end BlockCoding
