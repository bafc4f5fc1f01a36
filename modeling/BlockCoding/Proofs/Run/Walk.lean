import BlockCoding.Proofs.Grid.Chains
import BlockCoding.Proofs.Run.LookAhead
import BlockCoding.Proofs.Run.Telling

/-!
# Proofs/Run/Walk — where a run goes, and what opens its gates

A step of a run rests, or one action takes effect (`Went`, `Stepped.went`).  An action stays where
it is or leads into an adjacent cell with a tile that lets the avatar in (`Effect.follows`), and
what it announces about the gates is what becomes of them (`Effect.gate_eq`).  So the trace is a
walk over cells that can be entered, the gates open at most once, and where they are open there was
an earlier step that threw a switch (`exists_thrown`): all of it in `walk_and_gates`.
-/

namespace BlockCoding

/-! ## Gates that open -/

/-- Whether an event tells that the gates open. -/
def Event.isGateOpened : Event → Bool
  | .gateOpened => true
  | _ => false

theorem Event.countP_isGateOpened_pos {events : List Event} :
    0 < events.countP isGateOpened ↔ .gateOpened ∈ events := by
  rw [List.countP_pos_iff]
  constructor
  · rintro ⟨event, hmem, h⟩
    cases event <;> cases h
    exact hmem
  · exact fun hmem => ⟨_, hmem, rfl⟩

/-! ## What an action does -/

section Action

variable {rules : Rules} {g world world' : Grid} {ctx ctx' : Context} {raised : List Event}
  {action : Action}

/-- Picking up tells of no gate. -/
private theorem Gathered.countP_isGateOpened {occasion : Pickup}
    (h : Gathered rules occasion world ctx world' ctx' raised) :
    raised.countP Event.isGateOpened = 0 := by
  refine List.countP_eq_zero.mpr fun event hmem hgate => ?_
  have hcollected := h.isCollected_of_mem hmem
  cases event <;> first
    | exact absurd hgate Bool.false_ne_true
    | exact absurd hcollected Bool.false_ne_true

/-- **An action announces that the gates open exactly if it opens them**, and closes none. -/
theorem Effect.gate_eq (h : Effect rules world ctx action (.performed world' ctx' raised)) :
    raised.countP Event.isGateOpened + ctx.gateOpen.toNat = ctx'.gateOpen.toNat := by
  cases h with
  | moved move there free pick =>
    rw [pick.context_eq, List.countP_cons_of_neg Bool.false_ne_true, pick.countP_isGateOpened,
      Nat.zero_add]
    rfl
  | collected pick =>
    rw [pick.countP_isGateOpened, Nat.zero_add, pick.context_eq]
    rfl
  | opened closed =>
    rw [closed]
    rfl
  | turned | sensed | scanned | inert => exact Nat.zero_add _

/-- **Only a switch block on a switch opens the gates.** -/
theorem Effect.switch_of_opens (h : Effect rules world ctx action (.performed world' ctx' raised))
    (hclosed : ctx.gateOpen = false) (hopen : ctx'.gateOpen = true) :
    action = .ifSwitch ∧ world.tile ctx.pos = .ok (some .switch) := by
  cases h with
  | opened closed there => exact ⟨rfl, there⟩
  | moved move there free pick =>
    rw [pick.context_eq] at hopen
    exact absurd hopen (by rw [Context.spend, hclosed]; exact Bool.false_ne_true)
  | collected pick =>
    rw [pick.context_eq] at hopen
    exact absurd hopen (by rw [Context.spend, hclosed]; exact Bool.false_ne_true)
  | turned | sensed | scanned | inert =>
    exact absurd hopen (by simp [Context.spend, hclosed])

/-- **An action stays where it is or enters an adjacent cell**, and a gate only if it is open. -/
theorem Effect.follows (hcleared : Grid.ClearedFrom g world)
    (hpos : world.inBounds ctx.pos = true)
    (h : Effect rules world ctx action (.performed world' ctx' raised)) :
    ctx'.pos = ctx.pos ∨ g.Entered ctx.pos ctx'.pos ∧
      (g.tile ctx'.pos = .ok (some .gate) → ctx.gateOpen = true) := by
  cases h with
  | @moved _ heading tile _ _ _ move there free pick =>
    have hctx : ctx'.pos = ctx.pos.offset heading := by rw [pick.context_eq]; rfl
    have hbounds := (hcleared.shape.inBounds_eq _).symm.trans (Grid.inBounds_of_tile there)
    refine .inr ?_
    rw [hctx]
    refine ⟨⟨Grid.adjacent_offset hpos heading, hbounds, fun hwall => ?_⟩, fun hgate => ?_⟩
    · rw [(hcleared.tile_iff (by decide) (by decide)).mpr hwall] at there
      obtain rfl := Option.some.inj (Except.ok.inj there)
      cases free
    · rw [(hcleared.tile_iff (by decide) (by decide)).mpr hgate] at there
      obtain rfl := Option.some.inj (Except.ok.inj there)
      exact free
  | collected pick =>
    refine .inl ?_
    rw [pick.context_eq]
    rfl
  | turned | opened | sensed | scanned | inert => exact .inl rfl

end Action

namespace GridRun

/-! ## What a step does -/

/-- **How a step goes**: it rests, which ends the run, or one action takes effect. -/
inductive Went (r : GridRun) (events : List Event) (r' : GridRun) : Prop where
  | rested (quiet : events.countP Event.isGateOpened = 0) (world_eq : r'.world = r.world)
      (context_eq : r'.context = r.context) (trace_eq : r'.trace = r.trace)
  | acted {index : Nat} {action : Action} {raised : List Event} (first : r.next? = some action)
      (done : r.rules.perform r.world r.context action
        = .ok (.performed r'.world r'.context raised))
      (told : events = .executing index :: raised ++ r'.verdict.toList.map Event.finished)
      (trace_eq : r'.trace = r.trace ++ [r'.context.pos])

variable {g : Grid} {rules : Rules} {program : List Action} {r r' : GridRun}
  {told events : List Event}

/-- Every step goes one of these ways. -/
theorem Stepped.went (hr : r.Coherent) (hv : r.verdict = none) (hs : r.Stepped events r') :
    r.Went events r' := by
  have hfirst : ∀ {index action rest}, r.remaining = (index, action) :: rest →
      r.next? = some action := by
    intro index action rest next
    rw [next?_eq_head? hr, next]
    rfl
  cases hs with
  | exhausted | rejected => exact .rested rfl rfl rfl rfl
  | ended next done => exact .acted (hfirst next) done rfl rfl
  | @continued index cursor _ _ pending world context raised next done =>
    exact .acted (hfirst next) done (r.told_resume hv index cursor pending world context raised)
      rfl

/-- No step closes the gates, and the one that opens them announces it. -/
theorem Stepped.gate_eq (hr : r.Sound) (hv : r.verdict = none) (hs : r.Stepped events r') :
    events.countP Event.isGateOpened + r.context.gateOpen.toNat
      = r'.context.gateOpen.toNat := by
  cases hs.went (hr.coherent hv) hv with
  | rested quiet world_eq context_eq => rw [quiet, context_eq, Nat.zero_add]
  | acted first done told =>
    have hend : (r'.verdict.toList.map Event.finished).countP Event.isGateOpened = 0 := by
      cases r'.verdict <;> rfl
    rw [told, List.countP_append, hend, List.countP_cons_of_neg Bool.false_ne_true]
    exact (r.rules.effect_of_perform hr.tiled r.context done).gate_eq

/-- Open gates stay open. -/
theorem Stepped.gateOpen_of_gateOpen (hr : r.Sound) (hv : r.verdict = none)
    (hs : r.Stepped events r') (hopen : r.context.gateOpen = true) :
    r'.context.gateOpen = true := by
  have hgate := hs.gate_eq hr hv
  rw [hopen] at hgate
  cases hopen' : r'.context.gateOpen with
  | true => rfl
  | false =>
    rw [hopen'] at hgate
    exact absurd hgate (Nat.succ_ne_zero _)

/-- **A step announces that the gates open exactly if it opens them.** -/
theorem Stepped.gateOpened_mem_iff (hr : r.Sound) (hv : r.verdict = none)
    (hs : r.Stepped events r') :
    .gateOpened ∈ events ↔ r.context.gateOpen = false ∧ r'.context.gateOpen = true := by
  have hgate := hs.gate_eq hr hv
  rw [← Event.countP_isGateOpened_pos]
  generalize events.countP Event.isGateOpened = count at hgate ⊢
  generalize r.context.gateOpen = was, r'.context.gateOpen = is at hgate ⊢
  cases was <;> cases is <;> simp at hgate ⊢ <;> omega

/-! ## The walk -/

/-- **A run whose trace is a walk** from the start to where the avatar is, over cells that can be
entered, and which has announced that the gates open exactly if they are open. -/
structure Walks (g : Grid) (told : List Event) (r : GridRun) : Prop where
  cleared : Grid.ClearedFrom g r.world
  head?_eq : r.trace.head? = some g.start
  getLast?_eq : r.trace.getLast? = some r.context.pos
  isChain : r.trace.IsChain fun a b => b = a ∨ g.Entered a b
  gate_eq : told.countP Event.isGateOpened = r.context.gateOpen.toNat

theorem walks_start (g : Grid) (rules : Rules) (program : List Action) :
    Walks g [] (start g rules program) := ⟨.refl g, rfl, rfl, .singleton _, rfl⟩

/-- **A step that moves enters a cell**, and a gate only if the gates are open. -/
theorem Walks.entered (h : Walks g told r) (hr : r.Sound) (hv : r.verdict = none)
    (hs : r.Stepped events r') (hmoved : r'.context.pos ≠ r.context.pos) :
    g.Entered r.context.pos r'.context.pos ∧
      (g.tile r'.context.pos = .ok (some .gate) → r.context.gateOpen = true) := by
  cases hs.went (hr.coherent hv) hv with
  | rested quiet world_eq context_eq => exact absurd (by rw [context_eq]) hmoved
  | acted first done =>
    have heffect := r.rules.effect_of_perform hr.tiled r.context done
    exact (heffect.follows h.cleared hr.inside.pos).resolve_left hmoved

/-- **Every step goes on with the walk.** -/
theorem Walks.stepped (h : Walks g told r) (hg : g.Tiled) (hr : r.Sound) (hv : r.verdict = none)
    (hs : r.Stepped events r') : Walks g (told ++ events) r' := by
  have hgate : (told ++ events).countP Event.isGateOpened = r'.context.gateOpen.toNat := by
    rw [List.countP_append, h.gate_eq, Nat.add_comm]
    exact hs.gate_eq hr hv
  cases hs.went (hr.coherent hv) hv with
  | rested quiet world_eq context_eq trace_eq =>
    refine ⟨?_, ?_, ?_, ?_, hgate⟩
    · rw [world_eq]
      exact h.cleared
    · rw [trace_eq, h.head?_eq]
    · rw [trace_eq, context_eq, h.getLast?_eq]
    · rw [trace_eq]
      exact h.isChain
  | acted first done told trace_eq =>
    have heffect := r.rules.effect_of_perform hr.tiled r.context done
    refine ⟨heffect.clearedFrom hg h.cleared, ?_, ?_, ?_, hgate⟩
    · rw [trace_eq, List.head?_append, h.head?_eq]
      rfl
    · rw [trace_eq, List.getLast?_concat]
    · rw [trace_eq]
      refine h.isChain.append (.singleton _) fun a ha b hb => ?_
      obtain rfl := Option.some.inj (h.getLast?_eq.symm.trans ha)
      obtain rfl := Option.some.inj hb
      exact Decidable.or_iff_not_imp_left.mpr fun hmoved => (h.entered hr hv hs hmoved).1

/-- From the start of a well-formed grid, every run walks. -/
theorem exists_walks (hg : g.WellFormed) (rules : Rules) (program : List Action) (n : Nat) :
    ∃ told r, stepTimes n (start g rules program) = .ok (told, r) ∧ r.Sound ∧ Walks g told r :=
  (sound_start hg rules program).exists_stepTimes_of_open
    (fun hr hv h hs => h.stepped hg.tiled hr hv hs) (walks_start g rules program) n

/-! ## The gates -/

/-- **A switch is thrown with step `k`**: a switch block is executed on a switch. -/
def SwitchThrown (g : Grid) (rules : Rules) (program : List Action) (k : Nat) : Prop :=
  ∃ told q events r, stepTimes k (start g rules program) = .ok (told, q) ∧
    q.step = .ok (events, r) ∧ q.Executes .ifSwitch events r ∧
    g.tile q.context.pos = .ok (some .switch)

/-- A step that opens the gates throws a switch. -/
theorem Walks.executes_of_opens (h : Walks g told r) (hr : r.Sound) (hv : r.verdict = none)
    (hs : r.Stepped events r') (hclosed : r.context.gateOpen = false)
    (hopen : r'.context.gateOpen = true) :
    r.Executes .ifSwitch events r' ∧ g.tile r.context.pos = .ok (some .switch) := by
  cases hs.went (hr.coherent hv) hv with
  | rested quiet world_eq context_eq =>
    rw [context_eq, hclosed] at hopen
    cases hopen
  | acted first done =>
    have heffect := r.rules.effect_of_perform hr.tiled r.context done
    obtain ⟨rfl, there⟩ := heffect.switch_of_opens hclosed hopen
    exact ⟨hs.executes (hr.coherent hv) hv first,
      (h.cleared.tile_iff (by decide) (by decide)).mp there⟩

/-- **Where the gates are open, a switch was thrown before.**  The induction is on the steps: with
the last one the gates were open already, or it opened them. -/
theorem exists_thrown (hg : g.WellFormed) (rules : Rules) (program : List Action) {n : Nat}
    (hn : stepTimes n (start g rules program) = .ok (told, r))
    (hopen : r.context.gateOpen = true) : ∃ k < n, SwitchThrown g rules program k := by
  induction n generalizing told r with
  | zero =>
    obtain ⟨rfl, rfl⟩ := Prod.mk.inj (Except.ok.inj hn)
    cases hopen
  | succ n ih =>
    obtain ⟨before, q, hq, hsound, hwalks⟩ := exists_walks hg rules program n
    cases hclosed : q.context.gateOpen with
    | true =>
      obtain ⟨k, hk, hthrown⟩ := ih hq hclosed
      exact ⟨k, Nat.lt_succ_of_lt hk, hthrown⟩
    | false =>
      cases hv : q.verdict with
      | some verdict =>
        rw [stepTimes_concat hq (step_of_verdict hv)] at hn
        obtain ⟨-, rfl⟩ := Prod.mk.inj (Except.ok.inj hn)
        rw [hclosed] at hopen
        cases hopen
      | none =>
        obtain ⟨events, r', hstep, hstepped, -⟩ := hsound.exists_stepped hv
        rw [stepTimes_concat hq hstep] at hn
        obtain ⟨-, rfl⟩ := Prod.mk.inj (Except.ok.inj hn)
        obtain ⟨hexecutes, hthere⟩ := hwalks.executes_of_opens hsound hv hstepped hclosed hopen
        exact ⟨n, Nat.lt_succ_self n, before, q, events, r', hq, hstep, hexecutes, hthere⟩

/-- **A run walks, and passes a gate only behind a switch.**  However many steps a run takes from
the start of a well-formed grid, its trace leads from the start to where the avatar is, and from
each of its cells to the same one or into an adjacent one inside the bounds that is no wall; and it
has announced that the gates open once if they are open, and not if they are closed.  If the next
step moves, it enters such a cell; and if that is a gate, a switch block was executed on a switch
with an earlier step.  It closes no gates, and it announces that they open exactly if it opens
them. -/
theorem walk_and_gates {g : Grid} (hg : g.WellFormed) (rules : Rules) (program : List Action)
    (n : Nat) :
    ∃ told q events r, stepTimes n (start g rules program) = .ok (told, q) ∧
      q.step = .ok (events, r) ∧
      stepTimes (n + 1) (start g rules program) = .ok (told ++ events, r) ∧
      q.trace.head? = some g.start ∧ q.trace.getLast? = some q.context.pos ∧
      q.trace.IsChain (fun a b => b = a ∨ g.Entered a b) ∧
      told.countP Event.isGateOpened = q.context.gateOpen.toNat ∧
      (r.context.pos ≠ q.context.pos → g.Entered q.context.pos r.context.pos ∧
        (g.tile r.context.pos = .ok (some .gate) → ∃ k < n, SwitchThrown g rules program k)) ∧
      (q.context.gateOpen = true → r.context.gateOpen = true) ∧
      (.gateOpened ∈ events ↔ q.context.gateOpen = false ∧ r.context.gateOpen = true) := by
  obtain ⟨told, q, hn, hq, hwalks⟩ := exists_walks hg rules program n
  cases hv : q.verdict with
  | some verdict =>
    have hstep := step_of_verdict hv
    refine ⟨told, q, [], q, hn, hstep, stepTimes_concat hn hstep, hwalks.head?_eq,
      hwalks.getLast?_eq, hwalks.isChain, hwalks.gate_eq, fun hmoved => absurd rfl hmoved, id, ?_⟩
    simp
  | none =>
    obtain ⟨events, r, hstep, hstepped, -⟩ := hq.exists_stepped hv
    refine ⟨told, q, events, r, hn, hstep, stepTimes_concat hn hstep, hwalks.head?_eq,
      hwalks.getLast?_eq, hwalks.isChain, hwalks.gate_eq, fun hmoved => ?_,
      hstepped.gateOpen_of_gateOpen hq hv, hstepped.gateOpened_mem_iff hq hv⟩
    obtain ⟨hentered, hopen⟩ := hwalks.entered hq hv hstepped hmoved
    exact ⟨hentered, fun hthere => exists_thrown hg rules program hn (hopen hthere)⟩

/-- The winning program in the ruins, which throws the switch with its ninth step and enters the
gate with its eighteenth. -/
theorem walk_and_gates_ruins : Ruins.grid.WellFormed ∧
    ∃ told q events r, stepTimes 17 (start Ruins.grid .ruins (Action.ofNames Ruins.solution))
        = .ok (told, q) ∧
      q.step = .ok (events, r) ∧ told.countP Event.isGateOpened = 1 ∧ r.context.pos = ⟨7, 3⟩ ∧
      Ruins.grid.tile ⟨7, 3⟩ = .ok (some .gate) ∧
      ∃ k < 17, SwitchThrown Ruins.grid .ruins (Action.ofNames Ruins.solution) k := by
  have hw : Ruins.grid.WellFormed := by decide +kernel
  obtain ⟨told, q, events, r, hn, hstep, hnext, -, -, -, hcount, hmoves, -⟩ :=
    walk_and_gates hw .ruins (Action.ofNames Ruins.solution) 17
  have hstate : (stepTimes 17 (start Ruins.grid .ruins (Action.ofNames Ruins.solution))).map
      (fun s => (s.2.context.pos, s.2.context.gateOpen)) = .ok (⟨6, 3⟩, true) := by decide +kernel
  have hafter : (stepTimes 18 (start Ruins.grid .ruins (Action.ofNames Ruins.solution))).map
      (fun s => s.2.context.pos) = .ok ⟨7, 3⟩ := by decide +kernel
  have hgate : Ruins.grid.tile ⟨7, 3⟩ = .ok (some .gate) := by decide +kernel
  rw [hn] at hstate
  rw [hnext] at hafter
  obtain ⟨hpos, hopen⟩ := Prod.mk.inj (Except.ok.inj hstate)
  have hpos' : r.context.pos = ⟨7, 3⟩ := Except.ok.inj hafter
  have hmoved : r.context.pos ≠ q.context.pos := by
    rw [hpos']
    intro h
    exact absurd (h.trans hpos) (by decide)
  rw [hopen] at hcount
  exact ⟨hw, told, q, events, r, hn, hstep, hcount, hpos', hgate,
    (hmoves hmoved).2 (by rw [hpos', hgate])⟩

end GridRun

end BlockCoding
