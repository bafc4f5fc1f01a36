import BlockCoding.Proofs.Session.Chronicle
import BlockCoding.Proofs.Session.Consistency
import Mathlib.Data.List.Chain

/-!
# Proofs/Session/Lifecycle — a session is consistent in every history

Every operation on a consistent session goes well, passage by passage
(`Consistent.exists_moments`): a step that comes due is performed, a world is drawn for every
variant, and an edit or a feeding leaves the run where it is.  By induction a whole history does
so (`Consistent.exists_chronicle`), and from a new session on every moment is consistent
(`consistent_throughout`).
-/

namespace BlockCoding

/-! ## Editing -/

namespace Program

theorem frozen_append (p : Program) (block : Block) : (p.append block).2.frozen = p.frozen := by
  rw [append]
  split <;> rfl

theorem frozen_removeAt (p : Program) (i : Nat) : (p.removeAt i).2.frozen = p.frozen := by
  rw [removeAt]
  split
  · rfl
  · split <;> rfl

theorem frozen_clear (p : Program) : p.clear.frozen = p.frozen := by
  rw [clear]
  split <;> rfl

end Program

namespace Session

/-! ## Every operation is a sequence of passages -/

namespace Still

variable {s : Session}

theorem refl (s : Session) : s.Still s := ⟨rfl, rfl, rfl, .inl rfl, rfl, rfl, id⟩

/-- Edits that leave the program frozen or not are edits at a standstill. -/
theorem of_program {program : Program} (h : program.frozen = s.program.frozen) :
    s.Still { s with program } := ⟨rfl, rfl, rfl, .inl rfl, h, rfl, id⟩

/-- So is time, as long as the clock runs on or stays stopped. -/
theorem of_pacer {pacer : Pacer} (hrunning : pacer.running = s.pacer.running)
    (hstopped : s.pacer.Stopped → pacer = s.pacer) : s.Still { s with pacer } :=
  ⟨rfl, rfl, rfl, .inl rfl, rfl, hrunning, fun h => by rw [hstopped h]; exact h⟩

theorem drainEvents (s : Session) : s.Still s.drainEvents.2 :=
  ⟨rfl, rfl, rfl, .inr rfl, rfl, rfl, id⟩

theorem feed (s : Session) (dt : Float32) : s.Still (s.feed dt) :=
  of_pacer (s.pacer.running_advance dt) fun h => Pacer.advance_of_stopped h dt

theorem nextDue (s : Session) : s.Still { s with pacer := s.pacer.nextDue.2 } :=
  of_pacer s.pacer.running_nextDue fun h => by rw [Pacer.nextDue_of_not_running h.1]

theorem append (s : Session) (id : String) : s.Still (s.append id).2 := by
  rw [Session.append]
  split
  · exact refl s
  · split
    · exact of_program (s.program.frozen_append _)
    · exact refl s

theorem removeAt (s : Session) (i : Nat) : s.Still (s.removeAt i).2 :=
  of_program (s.program.frozen_removeAt i)

theorem clearProgram (s : Session) : s.Still s.clearProgram :=
  of_program s.program.frozen_clear

end Still

/-- Running an idle session with a block launches it; any other session is left as it is. -/
theorem passes_run (s : Session) : s.Passes s.run.2 := by
  rw [run]
  split
  · exact .still (.refl s)
  · next hidle => exact .launched (not_not.mp (not_or.mp hidle).1)

/-- A reset gives up the run, stops the clock and unfreezes the program; it may draw a new world of
the kind of the variant. -/
theorem exists_reset (s : Session) : ∃ template source, (template = s.template ∨
    template.Fits s.variant) ∧ s.reset = { s with
      template
      program := s.program.setFrozen false
      pacer := s.pacer.cancel
      play := { s.play.reset with source } } := by
  rw [reset]
  split
  · obtain ⟨template, source, hroll, hworld⟩ :=
      Template.exists_roll s.variant s.play.reset.source
    refine ⟨template, source, .inr hworld, ?_⟩
    dsimp only
    rw [hroll]
  · exact ⟨s.template, s.play.source, .inl rfl, rfl⟩

/-- **A reset returns to idle.** -/
theorem Consistent.passes_reset {s : Session} (h : s.Consistent) : s.Passes s.reset := by
  obtain ⟨template, source, hworld, heq⟩ := s.exists_reset
  rw [heq]
  refine .returned ?_ rfl s.pacer.stopped_cancel
  rcases hworld with rfl | hworld
  · exact h.world
  · exact hworld

/-- **Every variant can be loaded**, which returns to idle. -/
theorem exists_load (s : Session) (variant : Variant) :
    ∃ s', s.load variant = .ok s' ∧ s.Passes s' := by
  obtain ⟨template, source, hroll, hworld⟩ := Template.exists_roll variant s.play.source
  obtain ⟨_, _, -, heq⟩ := exists_reset { s with play := { s.play with source } }
  rw [load, hroll, ok_bind]
  dsimp only
  rw [heq]
  exact ⟨_, rfl, .returned hworld (Program.frozen_clear _) (Pacer.stopped_new _ _)⟩

/-- **A step that comes due is performed**, and is a passage. -/
theorem Consistent.exists_stepDue {s : Session} (h : s.Consistent) {pacer : Pacer}
    (hdue : s.pacer.nextDue = (true, pacer)) :
    ∃ pacer' play', stepDue s.settings s.template.celebrates pacer s.play = .ok (pacer', play') ∧
      s.Passes { s with pacer := pacer', play := play' } := by
  obtain ⟨hrunning, hticking⟩ := Pacer.running_of_nextDue hdue
  -- only a run under way or a celebration has a clock that runs
  rcases hbusy : s.state.isBusy with _ | _
  · have hstopped := (h.stopped hbusy).1
    rw [hrunning] at hstopped
    cases hstopped
  · have hshape := h.shape
    rcases hstate : s.state with _ | _ | _ | _ | _ <;> rw [hstate] at hbusy hshape
    · cases hbusy
    · obtain ⟨⟨run, hrun, hverdict⟩, -⟩ := hshape
      obtain ⟨t, ht, -⟩ := (h.run run hrun).exists_advance hverdict s.play.source
      have hstep := Play.step_of_running hstate hrun ht s.template.celebrates
      rcases hended : t.verdict with _ | verdict <;> rw [hended] at hstep
      · refine ⟨_, _, by rw [stepDue, hstep]; rfl, .advanced hstate hrun ht hended ?_⟩
        exact (running_follow_step s.settings pacer run).trans hticking
      · exact ⟨_, _, by rw [stepDue, hstep]; rfl, .concluded hstate hrun ht hended hticking⟩
    · have hstep := Play.step_of_celebrating hstate s.template.celebrates
      exact ⟨_, _, by rw [stepDue, hstep]; rfl, .declared hstate pacer.stopped_cancel⟩
    · cases hbusy
    · cases hbusy

/-- **A delivery goes well**, passage by passage.  The induction is on the number of steps. -/
theorem Consistent.exists_deliveries {s : Session} (h : s.Consistent) (n : Nat) :
    ∃ later, s.deliveries n = .ok later ∧ (s :: later).IsChain Passes := by
  induction n generalizing s with
  | zero =>
    exact ⟨_, rfl, List.isChain_cons_cons.mpr ⟨.still (.nextDue s), .singleton _⟩⟩
  | succ n ih =>
    have hstill := Still.nextDue s
    rcases hdue : s.pacer.nextDue with ⟨_ | _, pacer⟩
    · rw [hdue] at hstill
      exact ⟨_, by rw [deliveries, hdue]; rfl,
        List.isChain_cons_cons.mpr ⟨.still hstill, .singleton _⟩⟩
    · obtain ⟨pacer', play', hstep, hpasses⟩ := h.exists_stepDue hdue
      obtain ⟨later, hlater, hchain⟩ := ih (h.of_passes hpasses)
      refine ⟨{ s with pacer := pacer', play := play' } :: later, ?_,
        List.isChain_cons_cons.mpr ⟨hpasses, hchain⟩⟩
      rw [deliveries, hdue]
      dsimp only
      rw [hstep, ok_bind]
      dsimp only
      rw [hlater]
      rfl

/-- **Every operation goes well**, passage by passage. -/
theorem Consistent.exists_moments {s : Session} (h : s.Consistent) (operation : Operation) :
    ∃ now, s.moments operation = .ok now ∧ (s :: now).IsChain Passes := by
  have hone : ∀ {s' : Session}, s.Passes s' → (s :: [s']).IsChain Passes :=
    fun hp => List.isChain_cons_cons.mpr ⟨hp, .singleton _⟩
  cases operation with
  | append id => exact ⟨_, rfl, hone (.still (.append s id))⟩
  | removeAt i => exact ⟨_, rfl, hone (.still (.removeAt s i))⟩
  | clearProgram => exact ⟨_, rfl, hone (.still (.clearProgram s))⟩
  | run => exact ⟨_, rfl, hone s.passes_run⟩
  | reset => exact ⟨_, rfl, hone h.passes_reset⟩
  | drainEvents => exact ⟨_, rfl, hone (.still (.drainEvents s))⟩
  | load variant =>
    obtain ⟨s', hload, hpasses⟩ := s.exists_load variant
    exact ⟨[s'], by simp only [moments, perform, hload, ok_bind, pure_eq_ok], hone hpasses⟩
  | update dt =>
    have hfed : s.Passes (s.feed dt) := .still (.feed s dt)
    obtain ⟨later, hlater, hchain⟩ :=
      (h.of_passes hfed).exists_deliveries (s.feed dt).pacer.allowance
    exact ⟨s.feed dt :: later, by rw [moments, hlater]; rfl,
      List.isChain_cons_cons.mpr ⟨hfed, hchain⟩⟩

/-! ## Every history -/

/-- Passages from the last of some moments continue the passages to it. -/
theorem isChain_append {R : Session → Session → Prop} {s : Session} {now later : List Session}
    (hnow : (s :: now).IsChain R) (hlater : (now.getLastD s :: later).IsChain R) :
    (s :: (now ++ later)).IsChain R := by
  induction now generalizing s with
  | nil => exact hlater
  | cons m now ih =>
    obtain ⟨hm, hnow⟩ := List.isChain_cons_cons.mp hnow
    rw [List.getLastD_cons] at hlater
    exact List.isChain_cons_cons.mpr ⟨hm, ih hnow hlater⟩

/-- What passes from a consistent session is consistent throughout. -/
theorem Consistent.of_isChain {s : Session} (h : s.Consistent) {path : List Session}
    (hpath : (s :: path).IsChain Passes) : ∀ m ∈ s :: path, m.Consistent :=
  hpath.induction Consistent (s :: path) (fun _ _ hp hm => hm.of_passes hp) fun _ => h

/-- **Every sequence of operations goes well**, passage by passage. -/
theorem Consistent.exists_chronicle {s : Session} (h : s.Consistent)
    (operations : List Operation) :
    ∃ path, s.chronicle operations = .ok path ∧ (s :: path).IsChain Passes ∧
      s.history operations = .ok (path.getLastD s) := by
  suffices hpath : ∃ path, s.chronicle operations = .ok path ∧ (s :: path).IsChain Passes by
    obtain ⟨path, hpath, hchain⟩ := hpath
    exact ⟨path, hpath, hchain, by rw [history_eq_chronicle, hpath]; rfl⟩
  induction operations generalizing s with
  | nil => exact ⟨[], rfl, .singleton s⟩
  | cons operation operations ih =>
    obtain ⟨now, hnow, hchain⟩ := h.exists_moments operation
    have hlast := h.of_isChain hchain (now.getLastD s) List.getLastD_mem_cons
    obtain ⟨later, hlater, hchain'⟩ := ih hlast
    refine ⟨now ++ later, ?_, isChain_append hchain hchain'⟩
    rw [chronicle, hnow, ok_bind, hlater]
    rfl

/-- What a consistent session leads to is consistent. -/
theorem Consistent.of_history {s s' : Session} (h : s.Consistent) {operations : List Operation}
    (hs : s.history operations = .ok s') : s'.Consistent := by
  obtain ⟨path, -, hchain, hhistory⟩ := h.exists_chronicle operations
  obtain rfl := Except.ok.inj (hhistory.symm.trans hs)
  exact h.of_isChain hchain _ List.getLastD_mem_cons

/-- **A session can be had for every variant**, idle and consistent. -/
theorem exists_create (variant : Variant) (settings : Settings) (seed : Seed) :
    ∃ s, create variant settings seed = .ok s ∧ s.state = .idle ∧ s.play.callbacks = [] ∧
      s.Consistent := by
  obtain ⟨template, source, hroll, hworld⟩ := Template.exists_roll variant seed.generator
  refine ⟨⟨variant, settings, seed, .empty, template, .idle source, pacerFor settings variant⟩,
    by rw [create, hroll]; rfl, rfl, rfl, ?_⟩
  refine ⟨⟨rfl, rfl, rfl, Pacer.stopped_new _ _⟩, hworld, ?_⟩
  intro run hrun
  cases hrun

/-- **A session is consistent at every moment of every history.**  Whatever the variant, the
settings and the operations, nothing ends in a fault, unless a stage is ticked until a counter no
longer fits; at every moment, those between the steps of one feeding included, the session looks as
its state says; from each to the next the state changes as it may be changed or stays; and time
changes nothing unless a run is under way. -/
theorem consistent_throughout (variant : Variant) (settings : Settings) (seed : Seed)
    (operations : List Operation) :
    ∃ s path, create variant settings seed = .ok s ∧ s.chronicle operations = .ok path ∧
      s.history operations = .ok (path.getLastD s) ∧
      (s.history? operations = .ok (path.getLastD s) ∨
        s.history? operations = .error .overflow) ∧
      (∀ m ∈ s :: path, m.Consistent) ∧
      (s :: path).IsChain (fun a b => b.state = a.state ∨ a.state.LeadsTo b.state) ∧
      ∀ m ∈ s :: path, m.state.isBusy = false → ∀ dt, m.update dt = .ok m := by
  obtain ⟨s, hcreate, -, -, h⟩ := exists_create variant settings seed
  obtain ⟨path, hpath, hchain, hhistory⟩ := h.exists_chronicle operations
  have hall := h.of_isChain hchain
  refine ⟨s, path, hcreate, hpath, hhistory, history?_ok_or_overflow hhistory, hall,
    hchain.imp fun _ _ hp => hp.leadsTo, ?_⟩
  intro m hm hidle dt
  exact update_of_stopped ((hall m hm).stopped hidle) dt

/-- A session with a block in its program runs, and takes no other block then. -/
example : (create (.maze "lvl1") .standard ⟨7⟩).toOption.bind (fun s =>
    (s.history [.append "b1", .run, .append "b1"]).toOption.map fun s =>
      (s.state, s.program.size, s.program.frozen)) = some (.running, 1, true) := by
  decide +kernel

end Session

end BlockCoding
