import BlockCoding.Proofs.Session.Pacing
import Mathlib.Data.List.Forall2

/-!
# Proofs/Session/Configuration — the program of a stage is a configuration

A stage looks at its program once, when the run is launched, and then only at which actions it has
or at how often it has them (`FlightBehaviors.ofProgram_congr`, `OrchardBehaviors.ofProgram_congr`).
From there on a session that is fed time never looks at its program (`chronicle_withProgram`).  So
two sessions that differ in nothing but the order of their blocks, or for a flight in how many of
each there are, go through the same moments (`program_configures`).
-/

namespace BlockCoding

/-! ## Programs that configure a stage alike -/

/-- **Two programs configure the stage of a variant alike**: for a flight they have the same
actions, for the orchard each action as often.  Programs configure nothing but stages. -/
inductive Variant.SameConfiguration : Variant → Program → Program → Prop where
  | flight {p p' : Program} (same : ∀ action, action ∈ p.actions ↔ action ∈ p'.actions) :
      SameConfiguration .flight p p'
  | orchard {p p' : Program} (same : p.actions.Perm p'.actions) : SameConfiguration .orchard p p'

variable {p p' : Program}

theorem Program.contains_congr (same : ∀ action, action ∈ p.actions ↔ action ∈ p'.actions)
    (action : Action) : p'.contains action = p.contains action := by
  rw [contains, contains, Bool.eq_iff_iff, List.contains_iff_mem, List.contains_iff_mem, same]

theorem Program.isEmpty_congr (same : ∀ action, action ∈ p.actions ↔ action ∈ p'.actions) :
    p'.isEmpty = p.isEmpty := by
  have hnone (p : Program) : p.isEmpty = true ↔ ∀ action, action ∉ p.actions := by
    rw [isEmpty, List.isEmpty_iff, ← List.eq_nil_iff_forall_not_mem, actions, List.map_eq_nil_iff]
  rw [Bool.eq_iff_iff, hnone, hnone]
  simp only [same]

/-- **Only the presence of a block matters to a flight.** -/
theorem FlightBehaviors.ofProgram_congr
    (same : ∀ action, action ∈ p.actions ↔ action ∈ p'.actions) : ofProgram p' = ofProgram p := by
  simp only [ofProgram, Program.contains_congr same]

/-- **Only the number of each block matters to the orchard.** -/
theorem OrchardBehaviors.ofProgram_congr (same : p.actions.Perm p'.actions) :
    ofProgram p' = ofProgram p := by
  have hcount (action : Action) : p'.count action = p.count action := (same.count_eq action).symm
  simp only [ofProgram, hcount, Program.contains_congr fun _ => same.mem_iff]

namespace Variant.SameConfiguration

variable {variant : Variant}

theorem isEmpty_eq (same : variant.SameConfiguration p p') : p'.isEmpty = p.isEmpty := by
  cases same with
  | flight same => exact Program.isEmpty_congr same
  | orchard same => exact Program.isEmpty_congr fun _ => same.mem_iff

/-- **Programs that configure a stage alike launch the same run.** -/
theorem launch_eq (same : variant.SameConfiguration p p') {template : Template}
    (world : template.Fits variant) :
    ActiveRun.launch template p' = ActiveRun.launch template p := by
  cases same with
  | flight same =>
    cases world with
    | grid ruled => cases ruled
    | sky layout => rw [ActiveRun.launch, FlightBehaviors.ofProgram_congr same, ActiveRun.launch]
  | orchard same =>
    cases world with
    | grid ruled => cases ruled
    | orchard => rw [ActiveRun.launch, OrchardBehaviors.ofProgram_congr same, ActiveRun.launch]

end Variant.SameConfiguration

namespace Session

/-! ## A session that is fed time -/

/-- A session with another program. -/
def withProgram (program : Program) (s : Session) : Session := { s with program }

/-- **Two sessions that agree in everything but their programs.** -/
def SameButProgram (s s' : Session) : Prop := s' = s.withProgram s'.program

variable (program : Program)

/-- Steps that come due are performed without a look at the program. -/
theorem deliveries_withProgram (s : Session) (n : ℕ) :
    (s.withProgram program).deliveries n
      = (s.deliveries n).map (List.map (withProgram program)) := by
  induction n generalizing s with
  | zero => rfl
  | succ n ih =>
    rw [deliveries, deliveries, withProgram]
    rcases s.pacer.nextDue with ⟨_ | _, pacer⟩
    · rfl
    · dsimp only
      cases stepDue s.settings s.template.celebrates pacer s.play with
      | error e => rfl
      | ok d =>
        have hlater := ih { s with pacer := d.1, play := d.2 }
        rw [withProgram] at hlater
        simp only [ok_bind, hlater]
        cases deliveries { s with pacer := d.1, play := d.2 } n <;> rfl

theorem moments_withProgram (s : Session) (dt : Float32) :
    (s.withProgram program).moments (.update dt)
      = (s.moments (.update dt)).map (List.map (withProgram program)) := by
  have hlater := deliveries_withProgram program (s.feed dt) (s.feed dt).pacer.allowance
  change (((s.feed dt).withProgram program).deliveries (s.feed dt).pacer.allowance >>= fun later =>
    pure ((s.feed dt).withProgram program :: later)) = _
  rw [hlater, moments]
  cases (s.feed dt).deliveries (s.feed dt).pacer.allowance <;> rfl

/-- **Feeding time never looks at the program.** -/
theorem chronicle_withProgram (s : Session) (dts : List Float32) :
    (s.withProgram program).chronicle (dts.map .update)
      = (s.chronicle (dts.map .update)).map (List.map (withProgram program)) := by
  induction dts generalizing s with
  | nil => rfl
  | cons dt dts ih =>
    rw [List.map_cons, chronicle, chronicle, moments_withProgram]
    cases s.moments (.update dt) with
    | error e => rfl
    | ok now =>
      have hlast : (now.map (withProgram program)).getLastD (s.withProgram program)
          = (now.getLastD s).withProgram program := by
        simp [List.getLastD_eq_getLast?]
      rw [Except.map, ok_bind, hlast, ih, ok_bind]
      cases (now.getLastD s).chronicle (dts.map .update) with
      | error e => rfl
      | ok later => exact congrArg Except.ok List.map_append.symm

/-! ## Two programs -/

variable {program}

/-- A program that is as empty and launches the same run makes a session run just so. -/
theorem run_withProgram {s : Session} (hempty : program.isEmpty = s.program.isEmpty)
    (hlaunch : ActiveRun.launch s.template program = .launch s.template s.program) :
    (s.withProgram program).run.1 = s.run.1 ∧
      s.run.2.SameButProgram (s.withProgram program).run.2 := by
  have hrun : (s.withProgram program).run = if s.state ≠ .idle ∨ program.isEmpty = true
      then (false, s.withProgram program)
      else (true, { s with
        program := program.setFrozen true
        play := s.play.launch (.launch s.template program)
        pacer := s.pacer.start }) := rfl
  rw [hrun, hempty, hlaunch, run]
  split
  · exact ⟨rfl, rfl⟩
  · exact ⟨rfl, rfl⟩

/-- **With programs that configure the stage alike, two sessions go through the same moments.** -/
theorem SameButProgram.exists_paths {s s' : Session} (h : s.SameButProgram s') (hs : s.Consistent)
    (same : s.variant.SameConfiguration s.program s'.program) :
    s'.run.1 = s.run.1 ∧ ∀ dts : List Float32, ∃ path path',
      s.run.2.chronicle (dts.map .update) = .ok path ∧
      s'.run.2.chronicle (dts.map .update) = .ok path' ∧
      List.Forall₂ SameButProgram (s.run.2 :: path) (s'.run.2 :: path') := by
  have hrun : s'.run.1 = s.run.1 ∧ s.run.2.SameButProgram s'.run.2 := by
    have hsame := run_withProgram same.isEmpty_eq (same.launch_eq hs.world)
    rwa [← h] at hsame
  obtain ⟨htaken, hrunning⟩ := hrun
  refine ⟨htaken, fun dts => ?_⟩
  obtain ⟨path, hpath, -⟩ := (hs.of_passes s.passes_run).exists_chronicle (dts.map .update)
  refine ⟨path, path.map (withProgram s'.run.2.program), hpath, ?_, .cons hrunning ?_⟩
  · rw [hrunning, chronicle_withProgram, hpath]
    rfl
  · exact List.forall₂_map_right_iff.mpr (List.forall₂_same.mpr fun m _ => rfl)

/-- **The program of a stage is a configuration.**  Whatever has happened to a session, two
histories of edits may follow.  If the programs they leave have the same actions, for a flight, or
each action as often, for the orchard, then both are run or both are not, and under the same
feedings of time the two sessions agree in everything but their programs at every moment. -/
theorem program_configures (variant : Variant) (settings : Settings) (seed : Seed)
    (operations : List Operation) {edits edits' : List Operation}
    (hedits : ∀ edit ∈ edits, edit.isEdit = true) (hedits' : ∀ edit ∈ edits', edit.isEdit = true) :
    ∃ s₀ s₁ s s', create variant settings seed = .ok s₀ ∧ s₀.history operations = .ok s₁ ∧
      s₁.history edits = .ok s ∧ s₁.history edits' = .ok s' ∧
      (s₁.variant.SameConfiguration s.program s'.program →
        s'.run.1 = s.run.1 ∧ ∀ dts : List Float32, ∃ path path',
          s.run.2.chronicle (dts.map .update) = .ok path ∧
          s'.run.2.chronicle (dts.map .update) = .ok path' ∧
          List.Forall₂ SameButProgram (s.run.2 :: path) (s'.run.2 :: path')) := by
  obtain ⟨s₀, hcreate, -, -, hconsistent₀⟩ := exists_create variant settings seed
  obtain ⟨path, -, -, hhistory⟩ := hconsistent₀.exists_chronicle operations
  have hconsistent := hconsistent₀.of_history hhistory
  generalize path.getLastD s₀ = s₁ at *
  obtain ⟨program, hedited⟩ := exists_program_of_edits hedits s₁
  obtain ⟨program', hedited'⟩ := exists_program_of_edits hedits' s₁
  have hs := hedited s₁.settings s₁.pacer
  have hs' := hedited' s₁.settings s₁.pacer
  refine ⟨s₀, s₁, _, _, hcreate, hhistory, hs, hs', fun same => ?_⟩
  exact SameButProgram.exists_paths rfl (hconsistent.of_history hs) same

/-- A flight that goes on and bounces, configured in two ways: three blocks, or four of another
order with one of them twice, after an edit that is undone. -/
theorem program_configures_flight :
    ∃ s₀ s s', create .flight .standard ⟨7⟩ = .ok s₀ ∧
      s₀.history [.append "c1", .append "c2", .append "c3"] = .ok s ∧
      s₀.history [.append "c3", .append "c4", .append "c1", .append "c3", .removeAt 1, .append "c2"]
        = .ok s' ∧
      s.program.actions = [.forever, .ifEdge, .bounce] ∧
      s'.program.actions = [.bounce, .forever, .bounce, .ifEdge] ∧
      s'.run.1 = s.run.1 ∧ ∀ dts : List Float32, ∃ path path',
        s.run.2.chronicle (dts.map .update) = .ok path ∧
        s'.run.2.chronicle (dts.map .update) = .ok path' ∧
        List.Forall₂ SameButProgram (s.run.2 :: path) (s'.run.2 :: path') := by
  let edits : List Operation := [.append "c1", .append "c2", .append "c3"]
  let edits' : List Operation :=
    [.append "c3", .append "c4", .append "c1", .append "c3", .removeAt 1, .append "c2"]
  have hedits : ∀ edit ∈ edits, edit.isEdit = true := by decide
  have hedits' : ∀ edit ∈ edits', edit.isEdit = true := by decide
  obtain ⟨s₀, s₁, s, s', hcreate, hnothing, hs, hs', hsame⟩ :=
    program_configures .flight .standard ⟨7⟩ [] hedits hedits'
  obtain rfl := Except.ok.inj hnothing
  have hprograms : (create .flight .standard ⟨7⟩).map (fun s => (s.variant,
      (s.history edits).map (·.program.actions), (s.history edits').map (·.program.actions)))
        = .ok (.flight, .ok [.forever, .ifEdge, .bounce],
          .ok [.bounce, .forever, .bounce, .ifEdge]) := by
    decide +kernel
  rw [hcreate] at hprograms
  obtain ⟨hvariant, hprograms⟩ := Prod.mk.inj (Except.ok.inj hprograms)
  obtain ⟨hactions, hactions'⟩ := Prod.mk.inj hprograms
  rw [hs] at hactions
  rw [hs'] at hactions'
  have hblocks : s.program.actions = [.forever, .ifEdge, .bounce] := Except.ok.inj hactions
  have hblocks' : s'.program.actions = [.bounce, .forever, .bounce, .ifEdge] :=
    Except.ok.inj hactions'
  refine ⟨s₀, s, s', hcreate, hs, hs', hblocks, hblocks', hsame ?_⟩
  rw [hvariant]
  refine .flight fun action => ?_
  rw [hblocks, hblocks']
  simp only [List.mem_cons, List.not_mem_nil, or_false]
  constructor
  · rintro (h | h | h) <;> simp [h]
  · rintro (h | h | h | h) <;> simp [h]

end Session

end BlockCoding
