import BlockCoding.Proofs.Run.Reasons

/-!
# Proofs/Run/Energy — energy is an account on the side

No action looks at the energy: with any other amount it comes to the same, and what is left is that
amount less the cost of the action (`Rules.perform_paidFrom`).  What the events of a run tell can
therefore be billed (`Costs.bill`), without any bound; every step takes its bill off the energy,
down to zero at the least (`Stepped.toNat_energy`), and so does a whole run (`energy_billed`).
-/

namespace BlockCoding

/-! ## What an action costs -/

/-- The cost of an action that takes effect. -/
def Costs.of (costs : Costs) : Action → UInt32
  | .moveUp | .moveDown | .moveLeft | .moveRight | .step => costs.step
  | .turnLeft | .turnRight => costs.turn
  | .ifSwitch | .scan => costs.sense
  | .collect => costs.collect
  | .repeatNext _ | .forever | .ifEdge | .bounce | .color | .goLeft | .goRight | .incScore
  | .resetScore => 0

/-- The same outcome, if there is an amount of energy to pay a cost from. -/
def Outcome.paidFrom (energy cost : UInt32) : Outcome → Outcome
  | .rejected cause => .rejected cause
  | .performed world ctx raised => .performed world (({ ctx with energy }).spend cost) raised

/-- Spending is subtracting, down to zero at the least. -/
theorem Context.toNat_energy_spend (ctx : Context) (cost : UInt32) :
    (ctx.spend cost).energy.toNat = ctx.energy.toNat - cost.toNat := by
  rw [spend]
  split
  · next h =>
    rw [UInt32.le_iff_toNat_le] at h
    exact (Nat.sub_eq_zero_of_le h).symm
  · next h =>
    rw [UInt32.not_le] at h
    exact UInt32.toNat_sub_of_le _ _ (UInt32.le_of_lt h)

@[simp] theorem Context.spend_zero (ctx : Context) : ctx.spend 0 = ctx := by
  have henergy : (ctx.spend 0).energy = ctx.energy :=
    UInt32.toNat_inj.mp (ctx.toNat_energy_spend 0)
  exact congrArg (fun energy => { ctx with energy }) henergy

/-- Picking up does not look at the energy. -/
theorem Context.pickUp_withEnergy (ctx : Context) (energy : UInt32) (world : Grid) :
    ({ ctx with energy }).pickUp world
      = (ctx.pickUp world).map fun s => (s.1, { s.2.1 with energy }, s.2.2) := by
  rw [pickUp, pickUp]
  cases world.clear ctx.pos with
  | error fault => rfl
  | ok cleared =>
    simp only [ok_bind]
    split <;> rfl

namespace Rules

variable {rules rules' : Rules} (hcosts : rules'.costs = rules.costs)
  (hpickup : rules'.pickup = rules.pickup) (world : Grid) (ctx : Context) (energy : UInt32)

include hcosts hpickup in
private theorem enter_paidFrom (target : Cell) :
    rules'.enter world { ctx with energy } target
      = (rules.enter world ctx target).map (.paidFrom energy rules.costs.step) := by
  rw [enter, enter, hpickup, hcosts]
  cases world.tile target with
  | error fault => rfl
  | ok found =>
    cases found with
    | none => rfl
    | some tile =>
      simp only [ok_bind]
      split
      · cases rules.pickup with
        | onCollect => rfl
        | onEnter =>
          -- paying for the move and picking up do not get in each other's way
          have hpick := (({ ctx with pos := target }).spend
            rules.costs.step).pickUp_withEnergy (({ ctx with energy }).spend
              rules.costs.step).energy world
          refine (congrArg (· >>= _) hpick).trans ?_
          cases (({ ctx with pos := target }).spend rules.costs.step).pickUp world <;> rfl
      · rfl

include hcosts hpickup in
private theorem move_paidFrom (heading : Heading) :
    rules'.move world { ctx with energy } heading
      = (rules.move world ctx heading).map (.paidFrom energy rules.costs.step) := by
  rw [move, move]
  cases ctx.pos.offset? heading with
  | error fault => rfl
  | ok target => exact enter_paidFrom hcosts hpickup world ctx energy target

include hcosts in
private theorem tripSwitch_paidFrom :
    rules'.tripSwitch world { ctx with energy }
      = (rules.tripSwitch world ctx).map (.paidFrom energy rules.costs.sense) := by
  rw [tripSwitch, tripSwitch, hcosts]
  split
  · rfl
  · cases world.tile ctx.pos with
    | error fault => rfl
    | ok found =>
      simp only [ok_bind]
      split <;> rfl

include hcosts hpickup in
private theorem collect_paidFrom :
    rules'.collect world { ctx with energy }
      = (rules.collect world ctx).map (.paidFrom energy rules.costs.collect) := by
  rw [collect, collect, hpickup, hcosts]
  cases rules.pickup with
  | onEnter => rfl
  | onCollect =>
    rw [Context.pickUp_withEnergy]
    cases ctx.pickUp world <;> rfl

include hcosts hpickup in
/-- **Energy is an account on the side**: with any other amount an action comes to the same, and
pays its cost from that amount.  Of the rules, it matters only what they charge and how collectibles
are picked up. -/
theorem perform_paidFrom (action : Action) :
    rules'.perform world { ctx with energy } action
      = (rules.perform world ctx action).map (.paidFrom energy (rules.costs.of action)) := by
  cases action with
  | moveUp => exact move_paidFrom hcosts hpickup world ctx energy .up
  | moveDown => exact move_paidFrom hcosts hpickup world ctx energy .down
  | moveLeft => exact move_paidFrom hcosts hpickup world ctx energy .left
  | moveRight => exact move_paidFrom hcosts hpickup world ctx energy .right
  | step => exact move_paidFrom hcosts hpickup world ctx energy ctx.heading
  | turnLeft | turnRight =>
    rw [perform, perform, turn, turn, hcosts]
    rfl
  | scan =>
    rw [perform, perform, hcosts]
    rfl
  | ifSwitch => exact tripSwitch_paidFrom hcosts world ctx energy
  | collect => exact collect_paidFrom hcosts hpickup world ctx energy
  | repeatNext | forever | ifEdge | bounce | color | goLeft | goRight | incScore | resetScore =>
    simp [perform, Except.map, Outcome.paidFrom, Costs.of]

end Rules

/-! ## What events cost -/

/-- **What an event is billed with**, by a program and its costs: a move when it is told, and any
other block when it is announced. -/
def Costs.charge (costs : Costs) (program : List Action) : Event → Nat
  | .moved _ => costs.step.toNat
  | .executing index =>
    match askedBy program index with
    | some .turnLeft | some .turnRight => costs.turn.toNat
    | some .ifSwitch | some .scan => costs.sense.toNat
    | some .collect => costs.collect.toNat
    | _ => 0
  | _ => 0

/-- **The bill of all events told**, without any bound. -/
def Costs.bill (costs : Costs) (program : List Action) (events : List Event) : Nat :=
  (events.map (costs.charge program)).sum

theorem Costs.bill_append (costs : Costs) (program : List Action) (told events : List Event) :
    costs.bill program (told ++ events) = costs.bill program told + costs.bill program events := by
  rw [bill, List.map_append, List.sum_append]
  rfl

section Billing

variable {rules : Rules} {program : List Action} {world world' : Grid} {ctx ctx' : Context}
  {raised : List Event} {index : Nat} {action : Action}

/-- Picking up is free. -/
private theorem Gathered.bill_eq {occasion : Pickup} (program : List Action)
    (h : Gathered rules occasion world ctx world' ctx' raised) :
    rules.costs.bill program raised = 0 := by
  refine List.sum_eq_zero_iff_forall_eq_nat.mpr fun charge hmem => ?_
  obtain ⟨event, hevent, rfl⟩ := List.mem_map.mp hmem
  have hcollected := h.isCollected_of_mem hevent
  cases event <;> first | rfl | cases hcollected

/-- The announcement of a block is billed with the cost of its action, unless that is a move. -/
theorem Costs.charge_executing (costs : Costs) (hasks : AsksFor program index action)
    (facing : Heading) : costs.charge program (.executing index)
      = if (action.towards facing).isSome then 0 else (costs.of action).toNat := by
  rw [charge, hasks.askedBy_eq]
  cases action <;> rfl

/-- What moves costs a step. -/
theorem Costs.of_eq_step (costs : Costs) {facing heading : Heading}
    (h : action.towards facing = some heading) : costs.of action = costs.step := by
  cases action <;> first | rfl | cases h

/-- **An action that takes effect is billed with its cost.** -/
theorem Effect.bill_eq (h : Effect rules world ctx action (.performed world' ctx' raised))
    (hasks : AsksFor program index action) :
    rules.costs.bill program (.executing index :: raised) = (rules.costs.of action).toNat := by
  have hfirst := rules.costs.charge_executing hasks ctx.heading
  have hbill : rules.costs.bill program (.executing index :: raised)
      = rules.costs.charge program (.executing index) + rules.costs.bill program raised :=
    List.sum_cons
  rw [hbill, hfirst]
  cases h with
  | @moved _ heading _ _ _ picked move there free pick =>
    have hmoved : rules.costs.bill program (.moved (ctx.pos.offset heading) :: picked)
        = rules.costs.step.toNat + rules.costs.bill program picked := List.sum_cons
    rw [move, hmoved, pick.bill_eq, rules.costs.of_eq_step move]
    exact Nat.zero_add _
  | collected pick =>
    rw [pick.bill_eq]
    rfl
  | turned turn =>
    rw [Action.towards_of_turned turn]
    rfl
  | inert nothing =>
    rw [Action.towards_of_isInert nothing]
    rfl
  | opened | sensed | scanned => rfl

/-- **An action takes its cost off the energy**, down to zero at the least. -/
theorem Rules.toNat_energy_of_perform
    (h : rules.perform world ctx action = .ok (.performed world' ctx' raised)) :
    ctx'.energy.toNat = ctx.energy.toNat - (rules.costs.of action).toNat := by
  have hpaid := @Rules.perform_paidFrom rules rules rfl rfl world ctx ctx.energy action
  rw [h] at hpaid
  obtain ⟨-, hctx, -⟩ := Outcome.performed.inj (Except.ok.inj hpaid)
  rw [hctx, Context.toNat_energy_spend]

/-- A refused move is not billed. -/
theorem Effect.charge_of_rejected {cause : FailCause}
    (h : Effect rules world ctx action (.rejected cause)) (hasks : AsksFor program index action) :
    rules.costs.charge program (.executing index) = 0 := by
  rw [rules.costs.charge_executing hasks ctx.heading]
  cases h with
  | offGrid move | blocked move =>
    rw [move]
    rfl

end Billing

/-! ## The bill of a run -/

namespace GridRun

variable {rules : Rules} {program : List Action} {told events : List Event} {r r' : GridRun}

/-- **Every step takes its bill off the energy**, down to zero at the least. -/
theorem Stepped.toNat_energy (h : InStep rules program told r) (hr : r.Sound)
    (hv : r.verdict = none) (hs : r.Stepped events r') :
    r'.context.energy.toNat = r.context.energy.toNat - rules.costs.bill program events := by
  rw [← h.rules_eq]
  cases hs with
  | exhausted => rfl
  | rejected cursor pending next refused =>
    have heffect := r.rules.effect_of_perform hr.tiled r.context refused
    rw [Costs.bill, List.map_cons, List.sum_cons, heffect.charge_of_rejected (h.asksFor hr hv next)]
    rfl
  | ended next done =>
    have heffect := r.rules.effect_of_perform hr.tiled r.context done
    have henergy := Rules.toNat_energy_of_perform done
    rw [Costs.bill_append, heffect.bill_eq (h.asksFor hr hv next)]
    exact henergy
  | continued next done =>
    have heffect := r.rules.effect_of_perform hr.tiled r.context done
    rw [heffect.bill_eq (h.asksFor hr hv next)]
    exact Rules.toNat_energy_of_perform done

/-- A run that goes on has energy left. -/
theorem Stepped.energy_pos (hr : r.Sound) (hs : r.Stepped events r') (hv : r'.verdict = none) :
    0 < r'.context.energy := by
  cases hs with
  | exhausted | rejected | ended => cases hv
  | continued next done left coherent due =>
    exact UInt32.pos_iff_ne_zero.mpr (resume_verdictDue_none hr.tiled done due).2

/-- **The energy of a run is what it started with less its bill.** -/
theorem exists_billed {g : Grid} (hg : g.WellFormed) (rules : Rules) (program : List Action)
    (n : Nat) :
    ∃ told q, stepTimes n (start g rules program) = .ok (told, q) ∧ q.Sound ∧
      InStep rules program told q ∧
      q.context.energy.toNat = rules.startEnergy.toNat - rules.costs.bill program told := by
  refine @Sound.exists_stepTimes_of_open
    (fun told r => InStep rules program told r ∧
      r.context.energy.toNat = rules.startEnergy.toNat - rules.costs.bill program told)
    (fun hr hv h hs => ⟨h.1.stepped hr hv hs, ?_⟩)
    _ (sound_start hg rules program) [] ⟨.start g rules program, rfl⟩ n
  rw [hs.toNat_energy h.1 hr hv, h.2, Costs.bill_append, Nat.sub_sub]

/-- **The energy of a run is accounted for by what it tells.**  However many steps a run takes from
the start of a well-formed grid, its energy is what it started with less the whole bill of the
events told, or zero if the bill is larger.  The next step does not add to it, and leaves some if
the run goes on; and a run whose bill stays below what it started with has not failed for want of
energy. -/
theorem energy_billed {g : Grid} (hg : g.WellFormed) (rules : Rules) (program : List Action)
    (n : Nat) :
    ∃ told q events r, stepTimes n (start g rules program) = .ok (told, q) ∧
      q.step = .ok (events, r) ∧
      q.context.energy.toNat = rules.startEnergy.toNat - rules.costs.bill program told ∧
      r.context.energy ≤ q.context.energy ∧
      (r.verdict = none → 0 < r.context.energy) ∧
      (rules.costs.bill program told < rules.startEnergy.toNat →
        q.verdict ≠ some (.fail .outOfEnergy)) := by
  obtain ⟨told, q, hn, hq, hinstep, henergy⟩ := exists_billed hg rules program n
  have hspent : rules.costs.bill program told < rules.startEnergy.toNat →
      q.verdict ≠ some (.fail .outOfEnergy) := by
    intro hbelow hend
    obtain ⟨_, _, hn', -, -, hjustified⟩ := exists_justified hg rules program n
    obtain ⟨rfl, rfl⟩ := Prod.mk.inj (Except.ok.inj (hn.symm.trans hn'))
    cases hjustified _ hend with
    | outOfEnergy spent =>
      rw [spent, UInt32.toNat_zero] at henergy
      omega
  cases hv : q.verdict with
  | some verdict =>
    have hstep := step_of_verdict hv
    refine ⟨told, q, [], q, hn, hstep, henergy, UInt32.le_refl _, fun hnone => ?_, hspent⟩
    rw [hv] at hnone
    cases hnone
  | none =>
    obtain ⟨events, r, hstep, hstepped, -⟩ := hq.exists_stepped hv
    refine ⟨told, q, events, r, hn, hstep, henergy, ?_, hstepped.energy_pos hq, hspent⟩
    rw [UInt32.le_iff_toNat_le, hstepped.toNat_energy hinstep hq hv]
    exact Nat.sub_le _ _

/-- The whole of the winning program in the ruins: of 100 it spends 86. -/
theorem energy_billed_ruins : Ruins.grid.WellFormed ∧
    ∃ told q, stepTimes 24 (start Ruins.grid .ruins (Action.ofNames Ruins.solution))
        = .ok (told, q) ∧
      Rules.ruins.costs.bill (Action.ofNames Ruins.solution) told = 86 ∧
      q.context.energy.toNat = 14 ∧ q.verdict ≠ some (.fail .outOfEnergy) := by
  have hw : Ruins.grid.WellFormed := by decide +kernel
  obtain ⟨told, q, events, r, hn, -, henergy, -, -, hspent⟩ :=
    energy_billed hw .ruins (Action.ofNames Ruins.solution) 24
  have hbill : (stepTimes 24 (start Ruins.grid .ruins (Action.ofNames Ruins.solution))).map
      (Rules.ruins.costs.bill (Action.ofNames Ruins.solution) ·.1) = .ok 86 := by decide +kernel
  rw [hn] at hbill
  have hbill' : Rules.ruins.costs.bill (Action.ofNames Ruins.solution) told = 86 :=
    Except.ok.inj hbill
  rw [hbill'] at henergy hspent
  exact ⟨hw, told, q, hn, hbill', henergy, hspent (by decide)⟩

end GridRun

end BlockCoding
