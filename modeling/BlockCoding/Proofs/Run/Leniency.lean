import BlockCoding.Proofs.Run.Energy

/-!
# Proofs/Run/Leniency — more lenient rules never lose a win

`Rules.Eased` compares two rule sets: the second gives as much energy or more, and asks for as many
collectibles or fewer.  Under it a replay that wins still wins, perhaps earlier, and as long as it
is asked for the same, more energy makes no difference but to the energy, unless it was wanting
(`replayFrom_eased`).  What carries the induction is that no action looks at the energy
(`Rules.perform_paidFrom`), so that the two replays differ in nothing else; `leniency_keeps_wins`
says it of runs.
-/

namespace BlockCoding

/-! ## Comparing rules -/

/-- **A win rule of the same kind that asks for no more.** -/
inductive WinRule.Eased : WinRule → WinRule → Prop where
  | reachGoal {required required' : UInt64} (fewer : required' ≤ required) :
      Eased (.reachGoal required) (.reachGoal required')
  | collect {required required' : UInt64} (fewer : required' ≤ required) :
      Eased (.collect required) (.collect required')

/-- **More lenient rules**: as much energy to start with or more, as many collectibles required or
fewer, and the same costs and pickups.  What a win pays does not matter. -/
structure Rules.Eased (strict lenient : Rules) : Prop where
  costs_eq : lenient.costs = strict.costs
  pickup_eq : lenient.pickup = strict.pickup
  startEnergy_le : strict.startEnergy ≤ lenient.startEnergy
  win : strict.win.Eased lenient.win

/-- No win rule looks at the energy, nor at what was paid from it. -/
theorem WinRule.holds_paid (rule : WinRule) (world : Grid) (ctx : Context)
    (energy cost : UInt32) :
    rule.holds world (({ ctx with energy }).spend cost) = rule.holds world ctx := by
  cases rule <;> rfl

/-- **What is won is won if no more is asked for.** -/
theorem WinRule.Eased.holds {rule rule' : WinRule} (h : rule.Eased rule') {world : Grid}
    {ctx : Context} (won : rule.holds world ctx = .ok true) :
    rule'.holds world ctx = .ok true := by
  cases h with
  | @reachGoal required required' fewer =>
    obtain ⟨tile, htile, hboth⟩ := bind_eq_ok.mp won
    have hboth := Except.ok.inj hboth
    rw [Bool.and_eq_true, decide_eq_true_iff, decide_eq_true_iff] at hboth
    rw [UInt64.le_iff_toNat_le] at fewer
    refine bind_eq_ok.mpr ⟨tile, htile, congrArg Except.ok ?_⟩
    rw [Bool.and_eq_true, decide_eq_true_iff, decide_eq_true_iff]
    exact ⟨hboth.1, fewer.trans hboth.2⟩
  | @collect required required' fewer =>
    have henough := of_decide_eq_true (Except.ok.inj won)
    rw [UInt64.le_iff_toNat_le] at fewer
    exact congrArg Except.ok (decide_eq_true (fewer.trans henough))

/-! ## Two replays -/

/-- A replay goes on with the trace that there is. -/
theorem prefix_trace_of_replayFrom {rules : Rules} {world : Grid} (hw : world.Tiled)
    {ctx : Context} {trace : List Cell} {actions : List (Nat × Action)} {t : Transcript}
    (h : replayFrom rules world ctx trace actions = .ok t) : trace <+: t.trace := by
  induction actions generalizing world ctx trace t with
  | nil =>
    obtain rfl := Except.ok.inj h
    exact List.prefix_rfl
  | cons head rest ih =>
    obtain ⟨index, action⟩ := head
    cases hw.takesUp h with
    | rejected refused =>
      rw [replayFrom_rejected refused] at h
      obtain rfl := Except.ok.inj h
      exact List.prefix_rfl
    | won done won =>
      rw [replayFrom_won done won] at h
      obtain rfl := Except.ok.inj h
      exact List.prefix_append _ _
    | outOfEnergy done unwon spent =>
      rw [replayFrom_outOfEnergy done unwon spent] at h
      obtain rfl := Except.ok.inj h
      exact List.prefix_append _ _
    | continued done unwon left =>
      rw [replayFrom_continued done unwon left] at h
      obtain ⟨s, hs, rfl⟩ := map_eq_ok.mp h
      have hgrows := ih (GridRun.tiled_of_perform hw done) hs
      exact (List.prefix_append _ _).trans hgrows

/-- Whoever has no less energy has no less of it after an action. -/
theorem energy_le_of_paid {rules : Rules} {world world' : Grid} {ctx ctx' : Context}
    {action : Action} {raised : List Event} {energy : UInt32}
    (done : rules.perform world ctx action = .ok (.performed world' ctx' raised))
    (henergy : ctx.energy ≤ energy) :
    ctx'.energy ≤ (({ ctx' with energy }).spend (rules.costs.of action)).energy := by
  rw [UInt32.le_iff_toNat_le] at henergy ⊢
  rw [Rules.toNat_energy_of_perform done, Context.toNat_energy_spend]
  exact Nat.sub_le_sub_right henergy _

/-- **What a more lenient replay comes to**, beside a strict one. -/
structure Transcript.Eased (strict lenient : Rules) (t t' : Transcript) : Prop where
  /-- A win is kept, and comes no later. -/
  wins : t.verdict = .win → t'.verdict = .win ∧ t'.trace <+: t.trace
  /-- If as much is asked for and energy was not wanting, only the energy differs. -/
  same : lenient.win = strict.win → t.verdict ≠ .fail .outOfEnergy →
    t' = { t with context := { t.context with energy := t'.context.energy } } ∧
      t.context.energy ≤ t'.context.energy

/-- It stays so if both have told the same before. -/
theorem Transcript.Eased.after {strict lenient : Rules} {t t' : Transcript}
    (h : t.Eased strict lenient t') (events : List Event) :
    (t.after events).Eased strict lenient (t'.after events) := by
  refine ⟨h.wins, fun hsame hne => ?_⟩
  obtain ⟨heq, hmore⟩ := h.same hsame hne
  exact ⟨congrArg (Transcript.after events) heq, hmore⟩

/-- **Two replays of the same actions keep pace**, as long as the lenient one has no less energy.
The induction is on the actions; where only the lenient replay is won, the strict one goes on from
the trace that there is. -/
theorem replayFrom_eased {strict lenient : Rules} (heased : strict.Eased lenient) {world : Grid}
    (hw : world.Tiled) {ctx : Context} {energy : UInt32} (henergy : ctx.energy ≤ energy)
    {trace : List Cell} {actions : List (Nat × Action)} {t t' : Transcript}
    (h : replayFrom strict world ctx trace actions = .ok t)
    (h' : replayFrom lenient world { ctx with energy } trace actions = .ok t') :
    t.Eased strict lenient t' := by
  induction actions generalizing world ctx energy trace t t' with
  | nil =>
    obtain rfl := Except.ok.inj h
    obtain rfl := Except.ok.inj h'
    exact ⟨nofun, fun _ _ => ⟨rfl, henergy⟩⟩
  | cons head rest ih =>
    obtain ⟨index, action⟩ := head
    have hpaid := Rules.perform_paidFrom heased.costs_eq heased.pickup_eq world ctx energy action
    cases hw.takesUp h with
    | rejected refused =>
      rw [refused] at hpaid
      rw [replayFrom_rejected refused] at h
      rw [replayFrom_rejected hpaid] at h'
      obtain rfl := Except.ok.inj h
      obtain rfl := Except.ok.inj h'
      exact ⟨nofun, fun _ _ => ⟨rfl, henergy⟩⟩
    | @won world' ctx' raised done won =>
      rw [done] at hpaid
      have hwon := (lenient.win.holds_paid world' ctx' energy (strict.costs.of action)).trans
        (heased.win.holds won)
      rw [replayFrom_won done won] at h
      rw [replayFrom_won hpaid hwon] at h'
      obtain rfl := Except.ok.inj h
      obtain rfl := Except.ok.inj h'
      exact ⟨fun _ => ⟨rfl, List.prefix_rfl⟩, fun _ _ => ⟨rfl, energy_le_of_paid done henergy⟩⟩
    | outOfEnergy done unwon spent =>
      rw [replayFrom_outOfEnergy done unwon spent] at h
      obtain rfl := Except.ok.inj h
      exact ⟨nofun, fun _ hne => absurd rfl hne⟩
    | @continued world' ctx' raised done unwon left =>
      rw [done] at hpaid
      have hw' := GridRun.tiled_of_perform hw done
      have hle := energy_le_of_paid done henergy
      rw [replayFrom_continued done unwon left] at h
      obtain ⟨s, hs, rfl⟩ := map_eq_ok.mp h
      obtain ⟨won, hwon⟩ := lenient.win.exists_holds hw'
        (({ ctx' with energy }).spend (strict.costs.of action))
      cases won with
      | true =>
        rw [replayFrom_won hpaid hwon] at h'
        obtain rfl := Except.ok.inj h'
        have hgrows := prefix_trace_of_replayFrom hw' hs
        refine ⟨fun _ => ⟨rfl, hgrows⟩, fun hsame _ => ?_⟩
        rw [lenient.win.holds_paid, hsame, unwon] at hwon
        cases hwon
      | false =>
        have hleft : (({ ctx' with energy }).spend (strict.costs.of action)).energy ≠ 0 := by
          intro hzero
          rw [hzero] at hle
          exact left (UInt32.le_zero_iff.mp hle)
        rw [replayFrom_continued hpaid hwon hleft] at h'
        obtain ⟨s', hs', rfl⟩ := map_eq_ok.mp h'
        exact (ih hw' hle hs hs').after _

/-! ## Two runs -/

namespace GridRun

/-- **More lenient rules never lose a win.**  From the start of a well-formed grid, if a program
wins under some rules, it wins under more lenient ones, with a trace that goes no further.  If these
ask for as many collectibles, and the run under the first did not fail for want of energy, then
both come to the same verdict, with the same events, trace and world, and nothing but the energy
differs in the context. -/
theorem leniency_keeps_wins {g : Grid} (hg : g.WellFormed) {strict lenient : Rules}
    (heased : strict.Eased lenient) (program : List Action) :
    ∃ events r events' r', (start g strict program).runToEnd = .ok (events, r) ∧
      (start g lenient program).runToEnd = .ok (events', r') ∧
      (r.verdict = some .win → r'.verdict = some .win ∧ r'.trace <+: r.trace) ∧
      (lenient.win = strict.win → r.verdict ≠ some (.fail .outOfEnergy) →
        r'.verdict = r.verdict ∧ events' = events ∧ r'.trace = r.trace ∧ r'.world = r.world ∧
        r'.context = { r.context with energy := r'.context.energy } ∧
        r.context.energy ≤ r'.context.energy) := by
  obtain ⟨t, r, hreplay, hrun, hshows⟩ := exists_shows hg strict program
  obtain ⟨t', r', hreplay', hrun', hshows'⟩ := exists_shows hg lenient program
  have hpace := replayFrom_eased heased hg.tiled heased.startEnergy_le hreplay hreplay'
  refine ⟨t.events, r, t'.events, r', hrun, hrun', fun hwin => ?_, fun hsame hne => ?_⟩
  · rw [hshows.verdict] at hwin
    obtain ⟨hwin', hgrows⟩ := hpace.wins (Option.some.inj hwin)
    rw [hshows'.verdict, hshows'.trace, hshows.trace, hwin']
    exact ⟨rfl, hgrows⟩
  · rw [hshows.verdict] at hne
    obtain ⟨heq, hmore⟩ := hpace.same hsame fun hspent => hne (congrArg some hspent)
    rw [hshows'.verdict, hshows'.trace, hshows'.world, hshows'.context, hshows.verdict,
      hshows.trace, hshows.world, hshows.context]
    exact ⟨congrArg (some ·.verdict) heq, congrArg (·.events) heq, congrArg (·.trace) heq,
      congrArg (·.world) heq, congrArg (·.context) heq, hmore⟩

/-- A row of gems, of which the miner needs three: where two are enough the win comes earlier, and
with twice the energy the same way. -/
theorem leniency_keeps_wins_gems : (Grid.filled 4 1 .collectible ⟨0, 0⟩ .right).WellFormed ∧
    Rules.miner.Eased { Rules.miner with win := .collect 2 } ∧
    Rules.miner.Eased { Rules.miner with startEnergy := 200 } ∧
    ∃ r r' r'', (start (Grid.filled 4 1 .collectible ⟨0, 0⟩ .right) .miner
        [.collect, .step, .collect, .step, .collect]).runToEnd.map (·.2) = .ok r ∧
      (start (Grid.filled 4 1 .collectible ⟨0, 0⟩ .right) { Rules.miner with win := .collect 2 }
        [.collect, .step, .collect, .step, .collect]).runToEnd.map (·.2) = .ok r' ∧
      (start (Grid.filled 4 1 .collectible ⟨0, 0⟩ .right) { Rules.miner with startEnergy := 200 }
        [.collect, .step, .collect, .step, .collect]).runToEnd.map (·.2) = .ok r'' ∧
      r.verdict = some .win ∧ r'.verdict = some .win ∧ r'.trace <+: r.trace ∧
      r''.verdict = some .win ∧ r''.trace = r.trace := by
  have hw : (Grid.filled 4 1 .collectible ⟨0, 0⟩ .right).WellFormed := by decide +kernel
  have hfewer : Rules.miner.Eased { Rules.miner with win := .collect 2 } :=
    ⟨rfl, rfl, by decide, .collect (by decide)⟩
  have hmore : Rules.miner.Eased { Rules.miner with startEnergy := 200 } :=
    ⟨rfl, rfl, by decide, .collect (UInt64.le_refl 3)⟩
  obtain ⟨events, r, events', r', hrun, hrun', hwins, -⟩ :=
    leniency_keeps_wins hw hfewer [.collect, .step, .collect, .step, .collect]
  obtain ⟨_, _, events'', r'', hagain, hrun'', -, hsame⟩ :=
    leniency_keeps_wins hw hmore [.collect, .step, .collect, .step, .collect]
  obtain ⟨rfl, rfl⟩ := Prod.mk.inj (Except.ok.inj (hrun.symm.trans hagain))
  have hend : ((start (Grid.filled 4 1 .collectible ⟨0, 0⟩ .right) .miner
      [.collect, .step, .collect, .step, .collect]).runToEnd).map (·.2.verdict)
        = .ok (some .win) := by decide +kernel
  rw [hrun] at hend
  have hwin : r.verdict = some .win := Except.ok.inj hend
  obtain ⟨hverdict, -, htrace, -⟩ := hsame rfl (by rw [hwin]; nofun)
  rw [hrun, hrun', hrun'']
  exact ⟨hw, hfewer, hmore, r, r', r'', rfl, rfl, rfl, hwin, (hwins hwin).1, (hwins hwin).2,
    hverdict.trans hwin, htrace⟩

end GridRun

end BlockCoding
