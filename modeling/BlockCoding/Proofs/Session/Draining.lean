import BlockCoding.Proofs.Session.Lifecycle

/-!
# Proofs/Session/Draining — nobody notices when events are drained

The buffer of a session is only ever added to.  So a session that holds some `front` of events
besides its own goes through the same moments, each with that front (`Play.step_ahead`,
`Session.moments_ahead`); and draining only moves events from the buffer into the front
(`ahead_drained`).  `Session.listen` follows a sequence of operations and keeps what is handed out;
compared with the same operations without any drain, its moments are equal but for the buffer, and
nothing is lost (`listen_eq_chronicle`).
-/

namespace BlockCoding

/-! ## More events in the buffer -/

namespace Play

/-- The play with more events at the front of its buffer. -/
def ahead (front : List Event) (p : Play) : Play := { p with events := front ++ p.events }

variable (front : List Event) (p : Play)

theorem enterWin_ahead : (p.ahead front).enterWin = p.enterWin.ahead front := by
  cases h : p.rewarded <;> simp [enterWin, ahead, h]

/-- The consequences of a verdict do not depend on what is in the buffer. -/
theorem conclude_ahead (celebrates : Bool) (run : ActiveRun) (verdict : Verdict) :
    (p.ahead front).conclude celebrates run verdict
      = ((p.conclude celebrates run verdict).1.ahead front,
        (p.conclude celebrates run verdict).2) := by
  cases verdict with
  | win =>
    cases celebrates with
    | true => simp [conclude, ahead]
    | false =>
      simp only [conclude, Bool.false_eq_true, if_false, ← enterWin_ahead]
      simp [ahead]
  | fail cause => simp [conclude, ahead]

/-- **A step does not depend on what is in the buffer**, and leaves it in front. -/
theorem step_ahead (celebrates : Bool) :
    (p.ahead front).step celebrates
      = (p.step celebrates).map fun (next, pace) => (next.ahead front, pace) := by
  obtain ⟨state, verdict, run, rewarded, source, events, callbacks⟩ := p
  rcases state with _ | _ | _ | _ | _
  case running =>
    cases run with
    | none => rfl
    | some run =>
      simp only [step, ahead]
      cases run.advance source with
      | error fault => rfl
      | ok t =>
        simp only [ok_bind, List.append_assoc]
        cases t.verdict with
        | none => rfl
        | some verdict =>
          exact congrArg Except.ok (conclude_ahead front
            ⟨.running, _, some t.state, _, t.source, events ++ t.events, _⟩ celebrates t.state _)
  case celebrating => exact congrArg (fun q => Except.ok (q, Pace.halt)) (enterWin_ahead front _)
  all_goals rfl

end Play

namespace Session

/-- The session with more events at the front of its buffer. -/
def ahead (front : List Event) (s : Session) : Session := { s with play := s.play.ahead front }

/-- A session without its buffer. -/
def muted (s : Session) : Session := { s with play := { s.play with events := [] } }

@[simp] theorem ahead_nil (s : Session) : s.ahead [] = s := rfl

@[simp] theorem muted_ahead (front : List Event) (s : Session) : (s.ahead front).muted = s.muted :=
  rfl

/-- **Draining moves the buffer to the front.** -/
theorem ahead_drained (front : List Event) (s : Session) :
    s.drainEvents.2.ahead (front ++ s.drainEvents.1) = s.ahead front := by
  simp [drainEvents, ahead, Play.ahead]

theorem stepDue_ahead (settings : Settings) (celebrates : Bool) (pacer : Pacer)
    (front : List Event) (p : Play) :
    stepDue settings celebrates pacer (p.ahead front)
      = (stepDue settings celebrates pacer p).map
        fun (pacer, next) => (pacer, next.ahead front) := by
  rw [stepDue, stepDue, Play.step_ahead]
  cases p.step celebrates <;> rfl

/-- The moments of a delivery, each with the front.  The induction is on the steps allowed. -/
theorem deliveries_ahead (front : List Event) (s : Session) (n : Nat) :
    (s.ahead front).deliveries n = (s.deliveries n).map (List.map (ahead front)) := by
  induction n generalizing s with
  | zero => rfl
  | succ n ih =>
    have hpacer : (s.ahead front).pacer = s.pacer := rfl
    rw [deliveries, deliveries, hpacer]
    rcases s.pacer.nextDue with ⟨_ | _, pacer⟩
    · rfl
    · dsimp only
      change (stepDue s.settings s.template.celebrates pacer (s.play.ahead front) >>= _) = _
      rw [stepDue_ahead]
      cases stepDue s.settings s.template.celebrates pacer s.play with
      | error fault => rfl
      | ok d =>
        obtain ⟨pacer, play⟩ := d
        have hlater := ih { s with pacer, play }
        simp only [Except.map, ok_bind]
        change (deliveries (ahead front { s with pacer, play }) n >>= _) = _
        rw [hlater]
        cases deliveries { s with pacer, play } n <;> rfl

/-! ## Operations but for the drains -/

/-- Whether an operation hands out the buffered events. -/
def Operation.isDrain : Operation → Bool
  | .drainEvents => true
  | _ => false

/-- A sequence of operations without its drains. -/
def undrained (operations : List Operation) : List Operation :=
  operations.filter fun operation => !operation.isDrain

theorem reset_ahead (front : List Event) (s : Session) :
    (s.ahead front).reset = s.reset.ahead front := by
  by_cases hrerolls : rerolls s.variant = true
  · cases hroll : Template.roll s.variant s.play.source <;>
      simp only [reset, ahead, Play.reset, Play.ahead, hrerolls, hroll, if_true]
  · simp only [reset, ahead, Play.reset, Play.ahead, hrerolls, Bool.false_eq_true, if_false]

theorem load_ahead (front : List Event) (s : Session) (variant : Variant) :
    (s.ahead front).load variant = (s.load variant).map (ahead front) := by
  have hreset (source : Pcg) := reset_ahead front { s with play := { s.play with source } }
  simp only [load, ahead, Play.ahead] at hreset ⊢
  cases Template.roll variant s.play.source with
  | error e => rfl
  | ok world =>
    simp only [ok_bind, hreset]
    rfl

/-- **An operation other than a drain does not depend on what is in the buffer**, and leaves it in
front. -/
theorem perform_ahead (front : List Event) (s : Session) {operation : Operation}
    (h : operation.isDrain = false) (htime : ∀ dt, operation ≠ .update dt) :
    (s.ahead front).perform operation = (s.perform operation).map (ahead front) := by
  cases operation with
  | append id =>
    refine congrArg Except.ok ?_
    simp only [append]
    split
    · rfl
    · change (if s.variant.supports _ then _ else _ : Option Nat × Session).2 = _
      split <;> rfl
  | removeAt | clearProgram => rfl
  | run =>
    refine congrArg Except.ok ?_
    simp only [run]
    change (if s.state ≠ .idle ∨ s.program.isEmpty then _ else _ : Bool × Session).2 = _
    split <;> rfl
  | reset => exact congrArg Except.ok (reset_ahead front s)
  | load variant =>
    rw [perform, perform, load_ahead]
    cases s.load variant <;> rfl
  | update dt => exact absurd rfl (htime dt)
  | drainEvents => cases h

/-- **So do its moments.** -/
theorem moments_ahead (front : List Event) (s : Session) {operation : Operation}
    (h : operation.isDrain = false) :
    (s.ahead front).moments operation = (s.moments operation).map (List.map (ahead front)) := by
  by_cases htime : ∃ dt, operation = .update dt
  · obtain ⟨dt, rfl⟩ := htime
    rw [moments, moments]
    change (deliveries (ahead front (s.feed dt)) _ >>= _) = _
    rw [deliveries_ahead]
    change ((deliveries (s.feed dt) (s.feed dt).pacer.allowance).map _ >>= _) = _
    cases deliveries (s.feed dt) (s.feed dt).pacer.allowance <;> rfl
  · rw [not_exists] at htime
    rw [moments, moments, perform_ahead front s h htime]
    · cases s.perform operation <;> rfl
    · exact htime
    · exact htime

/-! ## Listening -/

/-- What is heard of a sequence of operations: its moments but for the drains, all events that were
handed out, and the session at the end. -/
structure Heard where
  moments : List Session
  taken : List Event
  last : Session

/-- **Listens to a sequence of operations.** -/
def listen (s : Session) : List Operation → Except Fault Heard
  | [] => pure ⟨[], [], s⟩
  | operation :: operations =>
    if operation.isDrain then do
      let heard ← listen s.drainEvents.2 operations
      pure { heard with taken := s.drainEvents.1 ++ heard.taken }
    else do
      let now ← s.moments operation
      let heard ← listen (now.getLastD s) operations
      pure { heard with moments := now ++ heard.moments }

/-- Listening ends where the operations lead. -/
theorem history_eq_listen (s : Session) (operations : List Operation) :
    s.history operations = (s.listen operations).map Heard.last := by
  induction operations generalizing s with
  | nil => rfl
  | cons operation operations ih =>
    rw [listen]
    cases hdrain : operation.isDrain with
    | true =>
      obtain rfl : operation = .drainEvents := by cases operation <;> first | rfl | cases hdrain
      rw [history_cons rfl, ih]
      simp only [if_true]
      cases s.drainEvents.2.listen operations <;> rfl
    | false =>
      rw [history, List.foldlM_cons, perform_eq_moments]
      simp only [Bool.false_eq_true, if_false]
      cases s.moments operation with
      | error fault => rfl
      | ok now =>
        refine (ih (now.getLastD s)).trans ?_
        simp only [ok_bind]
        cases listen (now.getLastD s) operations <;> rfl

/-- **Draining changes no moment and loses no event.**  A session goes through the moments of its
operations as it would without the drains, but for the buffer; and it ends as it would with all
that was handed out still in front of its buffer.  The induction is on the operations; the front is
what has been handed out so far. -/
theorem listen_eq_chronicle (front : List Event) (s : Session) (operations : List Operation) :
    (s.listen operations).map (fun heard =>
        (heard.moments.map muted, heard.last.ahead (front ++ heard.taken)))
      = ((s.ahead front).chronicle (undrained operations)).map fun path =>
        (path.map muted, path.getLastD (s.ahead front)) := by
  induction operations generalizing front s with
  | nil =>
    rw [listen, undrained, List.filter_nil, chronicle]
    exact congrArg (fun es => Except.ok ([], s.ahead es)) (List.append_nil front)
  | cons operation operations ih =>
    rw [listen, undrained, List.filter_cons]
    cases hdrain : operation.isDrain with
    | true =>
      have hrest := ih (front ++ s.drainEvents.1) s.drainEvents.2
      rw [ahead_drained] at hrest
      simp only [if_true, Bool.not_true, Bool.false_eq_true, if_false]
      rw [← undrained, ← hrest]
      cases s.drainEvents.2.listen operations with
      | error fault => rfl
      | ok heard =>
        refine congrArg (fun es => Except.ok (heard.moments.map muted, heard.last.ahead es)) ?_
        exact (List.append_assoc ..).symm
    | false =>
      simp only [Bool.false_eq_true, if_false, Bool.not_false, if_true]
      rw [chronicle, moments_ahead front s hdrain]
      cases s.moments operation with
      | error fault => rfl
      | ok now =>
        have hlast : (now.map (ahead front)).getLastD (s.ahead front)
            = (now.getLastD s).ahead front := List.getLastD_map
        have hrest := ih front (now.getLastD s)
        change ((listen (now.getLastD s) operations >>= _).map _ : Except Fault _)
          = (chronicle ((now.map (ahead front)).getLastD (s.ahead front)) _ >>= _).map _
        rw [hlast, ← undrained]
        generalize hpath : (ahead front (now.getLastD s)).chronicle (undrained operations) = later
          at hrest ⊢
        cases hheard : listen (now.getLastD s) operations with
        | error fault =>
          rw [hheard] at hrest
          cases later <;> cases hrest
          rfl
        | ok heard =>
          rw [hheard] at hrest
          obtain ⟨path, rfl, hsame⟩ := map_eq_ok.mp hrest.symm
          obtain ⟨hmoments, hend⟩ := Prod.mk.inj hsame
          have hwhole : (now ++ heard.moments).map muted
              = (now.map (ahead front) ++ path).map muted := by
            rw [List.map_append, List.map_append, hmoments, List.map_map]
            rfl
          have hlater : (now.map (ahead front) ++ path).getLastD (s.ahead front)
              = heard.last.ahead (front ++ heard.taken) := by
            rw [getLastD_append, hlast, hend]
          exact congrArg Except.ok (Prod.ext hwhole hlater.symm)

/-- **Nobody notices when events are drained.**  Whatever a session has been through before, and
whatever happens to it then, it goes through the same moments as without the drains, but for the
buffer: state, verdict, run, program, template, random source and callbacks included.  And all
events handed out, followed by those left in the buffer, are the buffer of the session that is not
drained. -/
theorem draining_unnoticed (variant : Variant) (settings : Settings) (seed : Seed)
    (before : List Operation) :
    ∃ s₀ s, create variant settings seed = .ok s₀ ∧ s₀.history before = .ok s ∧
      ∀ operations : List Operation, ∃ heard path,
        s.listen operations = .ok heard ∧ s.history operations = .ok heard.last ∧
        s.chronicle (undrained operations) = .ok path ∧
        s.history (undrained operations) = .ok (path.getLastD s) ∧
        heard.moments.map muted = path.map muted ∧
        heard.last.muted = (path.getLastD s).muted ∧
        heard.taken ++ heard.last.play.events = (path.getLastD s).play.events := by
  obtain ⟨s₀, hcreate, -, -, hconsistent₀⟩ := exists_create variant settings seed
  obtain ⟨path₀, -, -, hbefore⟩ := hconsistent₀.exists_chronicle before
  refine ⟨s₀, path₀.getLastD s₀, hcreate, hbefore, fun operations => ?_⟩
  have hconsistent := hconsistent₀.of_history hbefore
  generalize path₀.getLastD s₀ = s at *
  obtain ⟨path, hpath, -, hhistory⟩ := hconsistent.exists_chronicle (undrained operations)
  have hlisten := listen_eq_chronicle [] s operations
  rw [ahead_nil, hpath] at hlisten
  obtain ⟨heard, hheard, hsame⟩ := map_eq_ok.mp hlisten
  obtain ⟨hmoments, hlast⟩ := Prod.mk.inj hsame
  refine ⟨heard, path, hheard, by rw [history_eq_listen, hheard]; rfl, hpath, hhistory, hmoments,
    ?_, ?_⟩
  · rw [← hlast, muted_ahead]
  · rw [← hlast]
    rfl

end Session

end BlockCoding
