import BlockCoding.Proofs.Fault
import BlockCoding.Session.History

/-!
# Proofs/Session/Chronicle — the moments of a session

One feeding of time may perform many steps, so what a session goes through is finer than its
operations.  `Session.moments` lists the sessions that an operation leads over, one for every step
that comes due, and `Session.chronicle` those of a sequence of operations.  The last of them is the
session that the operations lead to (`perform_eq_moments`, `history_eq_chronicle`), also where its
counters have to fit into their words (`history?_ok_or_overflow`).
-/

namespace BlockCoding.Session

/-- The session once seconds are fed and no step is performed yet. -/
def feed (s : Session) (dt : Float32) : Session := { s with pacer := s.pacer.advance dt }

/-- **The moments of a delivery** of at most `n` steps: one after each step, and one when no
further step is due. -/
def deliveries (s : Session) : Nat → Except Fault (List Session)
  | 0 => pure [{ s with pacer := s.pacer.nextDue.2 }]
  | n + 1 =>
    match s.pacer.nextDue with
    | (false, pacer) => pure [{ s with pacer }]
    | (true, pacer) => do
      let (pacer, play) ← stepDue s.settings s.template.celebrates pacer s.play
      let later ← deliveries { s with pacer, play } n
      pure ({ s with pacer, play } :: later)

/-- **The moments of an operation**: its result, and for a feeding of time all that comes due. -/
def moments (s : Session) : Operation → Except Fault (List Session)
  | .update dt => do
    let later ← (s.feed dt).deliveries (s.feed dt).pacer.allowance
    pure (s.feed dt :: later)
  | operation => do
    let next ← s.perform operation
    pure [next]

/-- **The moments of a sequence of operations**, in order; the session they start from is not
among them. -/
def chronicle (s : Session) : List Operation → Except Fault (List Session)
  | [] => pure []
  | operation :: operations => do
    let now ← s.moments operation
    let later ← chronicle (now.getLastD s) operations
    pure (now ++ later)

/-! ## Where they lead -/

/-- One operation, and the others after it. -/
theorem history_cons {s s' : Session} {operation : Operation}
    (h : s.perform operation = .ok s') (later : List Operation) :
    s.history (operation :: later) = s'.history later := by
  rw [history, List.foldlM_cons, h]
  rfl

/-- Some operations, and the others after them. -/
theorem history_append {s s' : Session} {operations : List Operation}
    (h : s.history operations = .ok s') (later : List Operation) :
    s.history (operations ++ later) = s'.history later := by
  rw [history] at h
  rw [history, List.foldlM_append, h]
  rfl

/-- **A history whose counters have to fit comes to the same**, or one of them overflows. -/
theorem history?_ok_or_overflow {s s' : Session} {operations : List Operation}
    (h : s.history operations = .ok s') :
    s.history? operations = .ok s' ∨ s.history? operations = .error .overflow := by
  refine foldlM_ok_or_overflow (fun {t operation t'} hnext => ?_) h
  rw [perform?, hnext, ok_bind]
  exact fitting_ok_or_overflow fits t'

/-- **What every operation keeps is kept by every sequence of operations.** -/
theorem history_induction {Kept : Session → Prop}
    (hkept : ∀ {s s' : Session} {operation : Operation}, Kept s →
      s.perform operation = .ok s' → Kept s')
    {s s' : Session} (h : Kept s) {operations : List Operation}
    (hs : s.history operations = .ok s') : Kept s' := by
  induction operations generalizing s with
  | nil =>
    obtain rfl := Except.ok.inj hs
    exact h
  | cons operation operations ih =>
    rw [history, List.foldlM_cons] at hs
    obtain ⟨t, ht, hs⟩ := bind_eq_ok.mp hs
    exact ih (hkept h ht) hs

/-- The last moment of a delivery is what the delivery comes to. -/
theorem deliverUpTo_eq (s first : Session) (n : Nat) :
    (Pacer.deliverUpTo (stepDue s.settings s.template.celebrates) n s.pacer s.play).map
        (fun d => { s with pacer := d.1, play := d.2 })
      = (s.deliveries n).map (·.getLastD first) := by
  induction n generalizing s first with
  | zero => rfl
  | succ n ih =>
    rw [Pacer.deliverUpTo, deliveries]
    rcases s.pacer.nextDue with ⟨_ | _, pacer⟩
    · rfl
    · dsimp only
      cases stepDue s.settings s.template.celebrates pacer s.play with
      | error e => rfl
      | ok d =>
        obtain ⟨pacer, play⟩ := d
        refine (ih { s with pacer, play } { s with pacer, play }).trans ?_
        simp only [ok_bind]
        cases deliveries { s with pacer, play } n with
        | error e => rfl
        | ok later => exact congrArg Except.ok (List.getLastD_cons).symm

/-- The last moment of a feeding is the session that is fed. -/
theorem update_eq (s : Session) (dt : Float32) :
    s.update dt = ((s.feed dt).deliveries (s.feed dt).pacer.allowance).map
      (·.getLastD (s.feed dt)) :=
  have hbind : s.update dt = (Pacer.deliverUpTo (stepDue s.settings s.template.celebrates)
      (s.feed dt).pacer.allowance (s.feed dt).pacer s.play).map
        (fun d => { s.feed dt with pacer := d.1, play := d.2 }) := (map_eq_bind _ _).symm
  hbind.trans (deliverUpTo_eq (s.feed dt) (s.feed dt) _)

/-- **The last moment of an operation is its result.** -/
theorem perform_eq_moments (s : Session) (operation : Operation) :
    s.perform operation = (s.moments operation).map (·.getLastD s) := by
  cases operation with
  | update dt =>
    rw [perform, moments, update_eq]
    cases deliveries _ _ with
    | error e => rfl
    | ok later => exact congrArg Except.ok List.getLastD_cons.symm
  | append | removeAt | clearProgram | run | reset | load | drainEvents =>
    rw [moments]
    · cases s.perform _ <;> rfl
    · nofun

/-- The last of two lists of moments, one after the other. -/
theorem getLastD_append (now later : List Session) (first : Session) :
    (now ++ later).getLastD first = later.getLastD (now.getLastD first) := by
  simp only [List.getLastD_eq_getLast?, List.getLast?_append]
  cases later.getLast? <;> rfl

/-- **The last moment of a sequence of operations is what it leads to.** -/
theorem history_eq_chronicle (s : Session) (operations : List Operation) :
    s.history operations = (s.chronicle operations).map (·.getLastD s) := by
  induction operations generalizing s with
  | nil => rfl
  | cons operation operations ih =>
    rw [history, List.foldlM_cons, perform_eq_moments, chronicle]
    cases s.moments operation with
    | error e => rfl
    | ok now =>
      refine (ih (now.getLastD s)).trans ?_
      simp only [ok_bind]
      cases chronicle (now.getLastD s) operations with
      | error e => rfl
      | ok later => exact congrArg Except.ok (getLastD_append now later s).symm

end BlockCoding.Session
