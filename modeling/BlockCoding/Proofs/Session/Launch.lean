import BlockCoding.Proofs.Session.Pacing

/-!
# Proofs/Session/Launch — from a launch to the next return

Only a reset and a load return a session to idle (`Operation.returns`).  Until then one run goes on:
the program is frozen and stays as it is, and so does the variant (`GoesOn`); edits and further runs
are refused.  Conversely a session that is not idle has been launched, and nothing has returned it
since: its history has a last run that was taken (`exists_launch`).
-/

namespace BlockCoding

/-! ## Steps never return to idle -/

namespace Play

/-- The consequences of a verdict take a play out of its run. -/
theorem state_conclude (p : Play) (celebrates : Bool) (run : ActiveRun) (verdict : Verdict) :
    (p.conclude celebrates run verdict).1.state ≠ .idle ∧
      (p.conclude celebrates run verdict).1.state ≠ .running := by
  cases verdict <;> cases celebrates <;> simp [conclude]

variable {celebrates : Bool} {p q : Play}

theorem state_ne_idle_of_step {pace : Pace} (h : p.step celebrates = .ok (q, pace))
    (hp : p.state ≠ .idle) : q.state ≠ .idle := by
  rw [step] at h
  split at h
  · next hrunning hrun =>
    obtain ⟨t, -, h⟩ := bind_eq_ok.mp h
    dsimp only at h
    split at h
    · obtain ⟨rfl, -⟩ := Prod.mk.inj (Except.ok.inj h)
      exact hp
    · have hq := congrArg (fun d => d.1.state) (Except.ok.inj h)
      dsimp only at hq
      rw [← hq]
      exact (state_conclude _ _ _ _).1
  · obtain ⟨rfl, -⟩ := Prod.mk.inj (Except.ok.inj h)
    rw [state_enterWin]
    intro heq
    cases heq
  · obtain ⟨rfl, -⟩ := Prod.mk.inj (Except.ok.inj h)
    exact hp

/-- **No number of steps returns a play to idle.** -/
theorem state_ne_idle_of_stepTimes {n : Nat} (h : stepTimes celebrates n p = .ok q)
    (hp : p.state ≠ .idle) : q.state ≠ .idle := by
  induction n generalizing p with
  | zero =>
    obtain rfl := Except.ok.inj h
    exact hp
  | succ n ih =>
    rw [stepTimes] at h
    obtain ⟨⟨next, pace⟩, hstep, h⟩ := bind_eq_ok.mp h
    exact ih h (state_ne_idle_of_step hstep hp)

end Play

namespace Session

variable {s s' : Session}

/-! ## What is refused while a run is not given up -/

/-- While a session is not idle its program is frozen. -/
theorem Consistent.frozen (h : s.Consistent) (hs : s.state ≠ .idle) :
    s.program.frozen = true := by
  have hshape := h.shape
  rcases hstate : s.state with _ | _ | _ | _ | _ <;> rw [hstate] at hs hshape
  · exact absurd rfl hs
  · exact hshape.2.2.2.1
  · exact hshape.2.2.2.1
  · exact hshape.2.2.1
  · exact hshape.2.2.1

theorem append_of_frozen (h : s.program.frozen = true) (id : String) :
    s.append id = (none, s) := by
  rw [append]
  split
  · rfl
  · split
    · rw [Program.append, if_pos h]
    · rfl

theorem removeAt_of_frozen (h : s.program.frozen = true) (i : Nat) :
    s.removeAt i = (none, s) := by
  rw [removeAt, Program.removeAt, if_pos h]

theorem clearProgram_of_frozen (h : s.program.frozen = true) : s.clearProgram = s := by
  rw [clearProgram, Program.clear, if_pos h]

/-- Only an idle session takes a run. -/
theorem run_of_not_idle (h : s.state ≠ .idle) : s.run = (false, s) := by
  rw [run, if_pos (.inl h)]

/-- What a run that is taken comes to. -/
theorem run_of_taken (h : s.run.1 = true) : s.run.2 = { s with
    program := s.program.setFrozen true
    play := s.play.launch (.launch s.template s.program)
    pacer := s.pacer.start } := by
  rw [run] at h ⊢
  split at h
  · cases h
  · next hready => rw [if_neg hready]

/-- A run that is not taken changes nothing. -/
theorem run_of_not_taken (h : s.run.1 = false) : s.run.2 = s := by
  rw [run] at h ⊢
  split at h
  · next hrefused => rw [if_pos hrefused]
  · cases h

/-! ## One run -/

/-- Whether an operation gives up the run and returns to idle. -/
def Operation.returns : Operation → Bool
  | .reset | .load _ => true
  | _ => false

/-- **A passage within one run**, which neither launches it nor gives it up. -/
structure GoesOn (s s' : Session) : Prop where
  passes : s.Passes s'
  not_idle : s.state ≠ .idle
  not_idle' : s'.state ≠ .idle
  program_eq : s'.program = s.program
  variant_eq : s'.variant = s.variant

/-- A session later in the same run. -/
private structure Later (s m : Session) : Prop where
  not_idle : m.state ≠ .idle
  program_eq : m.program = s.program
  variant_eq : m.variant = s.variant

private theorem Later.of_paced {m : Session} {n : Nat} (h : s.Paced n m) (hs : s.state ≠ .idle) :
    s.Later m where
  not_idle := Play.state_ne_idle_of_stepTimes h.steps hs
  program_eq := by rw [h.same]
  variant_eq := by rw [h.same]

/-- Every moment of an operation that does not return is in the same run. -/
private theorem Consistent.later_of_moments (h : s.Consistent) (hs : s.state ≠ .idle)
    {operation : Operation} (hop : operation.returns = false) {now : List Session}
    (hnow : s.moments operation = .ok now) : ∀ m ∈ now, s.Later m := by
  have hfrozen := h.frozen hs
  have hsame : s.Later s := ⟨hs, rfl, rfl⟩
  have hone : ∀ {s' : Session}, s.Later s' → [s'] = now → ∀ m ∈ now, s.Later m := by
    rintro s' hs' rfl m hm
    obtain rfl := List.mem_singleton.mp hm
    exact hs'
  cases operation with
  | append id => exact hone (by rwa [append_of_frozen hfrozen]) (Except.ok.inj hnow)
  | removeAt i => exact hone (by rwa [removeAt_of_frozen hfrozen]) (Except.ok.inj hnow)
  | clearProgram => exact hone (by rwa [clearProgram_of_frozen hfrozen]) (Except.ok.inj hnow)
  | run => exact hone (by rwa [run_of_not_idle hs]) (Except.ok.inj hnow)
  | drainEvents => exact @hone s.drainEvents.2 ⟨hs, rfl, rfl⟩ (Except.ok.inj hnow)
  | update dt =>
    intro m hm
    obtain ⟨n, hn⟩ := exists_paced_of_moments hnow m hm
    exact .of_paced hn hs
  | reset | load => cases hop

/-- **An operation that does not return goes on with the run**, at every moment. -/
theorem Consistent.goesOn_of_moments (h : s.Consistent) (hs : s.state ≠ .idle)
    {operation : Operation} (hop : operation.returns = false) {now : List Session}
    (hnow : s.moments operation = .ok now) : (s :: now).IsChain GoesOn := by
  obtain ⟨now', hnow', hchain⟩ := h.exists_moments operation
  obtain rfl := Except.ok.inj (hnow.symm.trans hnow')
  have hlater : ∀ m ∈ s :: now, s.Later m := by
    intro m hm
    rcases List.mem_cons.mp hm with rfl | hm
    · exact ⟨hs, rfl, rfl⟩
    · exact h.later_of_moments hs hop hnow m hm
  refine hchain.imp_of_mem_imp fun a b ha hb hp => ⟨hp, (hlater a ha).not_idle,
    (hlater b hb).not_idle, ?_, ?_⟩
  · rw [(hlater b hb).program_eq, (hlater a ha).program_eq]
  · rw [(hlater b hb).variant_eq, (hlater a ha).variant_eq]

/-- What goes on from a consistent session that is not idle is so throughout. -/
theorem Consistent.of_goesOn (h : s.Consistent) (hs : s.state ≠ .idle) {path : List Session}
    (hpath : (s :: path).IsChain GoesOn) : ∀ m ∈ s :: path,
      m.Consistent ∧ m.state ≠ .idle ∧ m.program = s.program := by
  refine hpath.induction _ (s :: path) (fun a b hab ha => ?_) fun _ => ⟨h, hs, rfl⟩
  exact ⟨ha.1.of_passes hab.passes, hab.not_idle', hab.program_eq.trans ha.2.2⟩

/-- **Operations that do not return go on with the run.**  The induction is on the operations. -/
theorem Consistent.goesOn_of_chronicle (h : s.Consistent) (hs : s.state ≠ .idle)
    {operations : List Operation} (hops : ∀ op ∈ operations, op.returns = false)
    {path : List Session} (hpath : s.chronicle operations = .ok path) :
    (s :: path).IsChain GoesOn := by
  induction operations generalizing s path with
  | nil =>
    obtain rfl := Except.ok.inj hpath
    exact .singleton s
  | cons operation operations ih =>
    obtain ⟨now, hnow, hpath⟩ := bind_eq_ok.mp hpath
    obtain ⟨later, hlater, hpath⟩ := bind_eq_ok.mp hpath
    obtain rfl := Except.ok.inj hpath
    have hchain := h.goesOn_of_moments hs (hops _ List.mem_cons_self) hnow
    obtain ⟨hlast, hnot, -⟩ := h.of_goesOn hs hchain _ List.getLastD_mem_cons
    exact isChain_append hchain (ih hlast hnot
      (fun op hop => hops op (List.mem_cons_of_mem _ hop)) hlater)

/-! ## The last launch -/

/-- A reset leads to idle, … -/
theorem state_reset (s : Session) : s.reset.state = .idle := by
  obtain ⟨_, _, -, heq⟩ := s.exists_reset
  rw [heq]
  rfl

/-- …and so does a load. -/
theorem state_of_load {variant : Variant} (h : s.load variant = .ok s') : s'.state = .idle := by
  obtain ⟨⟨template, source⟩, -, h⟩ := bind_eq_ok.mp h
  obtain rfl := Except.ok.inj h
  exact state_reset { s with play := { s.play with source } }

/-- Operations that return lead to idle. -/
theorem state_of_returns {operation : Operation} (hop : operation.returns = true)
    (h : s.perform operation = .ok s') : s'.state = .idle := by
  cases operation with
  | reset =>
    obtain rfl := Except.ok.inj h
    exact s.state_reset
  | load variant =>
    obtain ⟨m, hload, -⟩ := s.exists_load variant
    rw [perform, hload] at h
    obtain rfl := Except.ok.inj h
    exact state_of_load hload
  | append | removeAt | clearProgram | run | update | drainEvents => cases hop

/-- **Only a run that is taken leads out of idle.** -/
theorem Consistent.run_of_idle (h : s.Consistent) (hs : s.state = .idle) {operation : Operation}
    (hop : s.perform operation = .ok s') (hs' : s'.state ≠ .idle) :
    operation = .run ∧ s.run.1 = true ∧ s.run.2 = s' := by
  have hstill : ∀ {m : Session}, s.Still m → (.ok m : Except Fault Session) ≠ .ok s' := by
    intro m hm heq
    obtain rfl := Except.ok.inj heq
    exact hs' (hm.state_eq.trans hs)
  cases operation with
  | append id => exact absurd hop (hstill (.append s id))
  | removeAt i => exact absurd hop (hstill (.removeAt s i))
  | clearProgram => exact absurd hop (hstill (.clearProgram s))
  | drainEvents => exact absurd hop (hstill (.drainEvents s))
  | update dt =>
    rw [perform, update_of_stopped (h.stopped (by rw [hs]; rfl))] at hop
    exact absurd hop (hstill (.refl s))
  | reset | load => exact absurd (state_of_returns rfl hop) hs'
  | run =>
    obtain rfl := Except.ok.inj hop
    refine ⟨rfl, ?_, rfl⟩
    rcases htaken : s.run.1 with _ | _
    · rw [run_of_not_taken htaken] at hs'
      exact absurd hs hs'
    · rfl

/-- **A session that is not idle has a last launch.**  Its history has a run that was taken, and no
operation after it returned.  The induction is on the history, from its end. -/
theorem Consistent.exists_launch (h : s.Consistent) (hs : s.state = .idle)
    {operations : List Operation} (hs' : s.history operations = .ok s') (hnot : s'.state ≠ .idle) :
    ∃ before after m, operations = before ++ .run :: after ∧
      (∀ op ∈ after, op.returns = false) ∧ s.history before = .ok m ∧ m.run.1 = true ∧
      m.run.2.history after = .ok s' := by
  induction operations using List.reverseRecOn generalizing s' with
  | nil =>
    obtain rfl := Except.ok.inj hs'
    exact absurd hs hnot
  | append_singleton operations operation ih =>
    obtain ⟨_, -, -, hhistory⟩ := h.exists_chronicle operations
    generalize List.getLastD _ _ = q at hhistory
    rw [history_append hhistory] at hs'
    obtain ⟨q', hop, hlast⟩ := bind_eq_ok.mp hs'
    obtain rfl := Except.ok.inj hlast
    by_cases hidle : q.state = .idle
    · obtain ⟨rfl, htaken, rfl⟩ := (h.of_history hhistory).run_of_idle hidle hop hnot
      exact ⟨operations, [], q, rfl, nofun, hhistory, htaken, rfl⟩
    · obtain ⟨before, after, m, rfl, hafter, hm, htaken, hq⟩ := ih hhistory hidle
      have hreturns : operation.returns = false := by
        rw [← Bool.not_eq_true]
        exact fun hreturns => hnot (state_of_returns hreturns hop)
      refine ⟨before, after ++ [operation], m, by rw [List.append_assoc]; rfl, ?_, hm, htaken, ?_⟩
      · intro op hmem
        rcases List.mem_append.mp hmem with hmem | hmem
        · exact hafter op hmem
        · obtain rfl := List.mem_singleton.mp hmem
          exact hreturns
      · rw [history_append hq, history_cons hop]
        rfl

end Session

end BlockCoding
