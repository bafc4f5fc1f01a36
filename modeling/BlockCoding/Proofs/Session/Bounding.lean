import BlockCoding.Proofs.Pacer.Bursts
import BlockCoding.Proofs.Session.Lifecycle

/-!
# Proofs/Session/Bounding — a session takes a bounded number of steps for each feeding

A step of a session may push its clock back or stop it, but never allows it more steps
(`follow_kept`).  So feeding time is the loop that goes on until no step is due, and the loop ends
after as many steps as the settings allow (`delivers_of_update`).  The clock is made anew when
another variant is loaded, for the same settings, so this holds in every history
(`bursts_bounded`).
-/

namespace BlockCoding.Session

/-- What comes of one due step. -/
def Steps (s : Session) (d e : Pacer × Play) : Prop :=
  stepDue s.settings s.template.celebrates d.1 d.2 = .ok e

/-! ## Steps -/

/-- **Following a pace allows no further steps**, unless it stops the clock. -/
theorem follow_kept (settings : Settings) (p : Pacer) (pace : Pace) :
    (follow settings p pace).maxSteps = p.maxSteps ∧ ((follow settings p pace).running = false ∨
      (follow settings p pace).allowance ≤ p.allowance) := by
  have hdelay (extra : Float32) : (p.delayNext extra).maxSteps = p.maxSteps ∧
      ((p.delayNext extra).running = false ∨ (p.delayNext extra).allowance ≤ p.allowance) :=
    ⟨(p.kept_perform (.delayNext extra)).2, .inr
      ((Nat.zero_add _).symm.trans_le (p.allowance_perform (.inr ⟨extra, rfl⟩)))⟩
  cases pace with
  | steady => exact ⟨rfl, .inr le_rfl⟩
  | scan | celebration => exact hdelay _
  | halt => exact ⟨rfl, .inl rfl⟩

variable {s t : Session}

theorem Steps.kept {d e : Pacer × Play} (h : s.Steps d e) : e.1.maxSteps = d.1.maxSteps ∧
    (e.1.running = false ∨ e.1.allowance ≤ d.1.allowance) := by
  obtain ⟨⟨play, pace⟩, -, heq⟩ := bind_eq_ok.mp h
  obtain rfl := Except.ok.inj heq
  exact follow_kept _ _ pace

theorem maxSteps_of_delivers {n : ℕ} {d e : Pacer × Play} (h : Pacer.Delivers s.Steps n d e) :
    e.1.maxSteps = d.1.maxSteps := by
  have hdue (p : Pacer) : p.nextDue.2.maxSteps = p.maxSteps := (p.kept_perform .nextDue).2
  induction h with
  | @done p _ _ idle =>
    have hp := hdue p
    rwa [idle] at hp
  | @next p _ _ _ _ _ due step _ ih =>
    have hp := hdue p
    rw [due] at hp
    rw [ih, step.kept.1, hp]

/-- **Feeding time is the loop that goes on until no step is due**, with a bounded number of steps
in it. -/
theorem delivers_of_update {dt : Float32} (h : s.update dt = .ok t) :
    ∃ n ≤ s.pacer.maxSteps, t = { s with pacer := t.pacer, play := t.play } ∧
      Pacer.Delivers s.Steps n (s.pacer.advance dt, s.play) (t.pacer, t.play) := by
  obtain ⟨d, hd, heq⟩ := bind_eq_ok.mp h
  obtain rfl := Except.ok.inj heq
  obtain ⟨n, hn, hloop⟩ := Pacer.delivers_of_deliverUpTo
    (fun q play _ h => (Steps.kept (s := s) (d := (q, play)) h).2) (.inr le_rfl) hd
  exact ⟨n, hn.trans ((Nat.sub_le _ _).trans (s.pacer.kept_perform (.advance dt)).2.le), rfl, hloop⟩

/-! ## Histories -/

/-- The session has given settings, and a clock made for them. -/
def Timed (settings : Settings) (s : Session) : Prop :=
  s.settings = settings ∧ s.pacer.maxSteps = max settings.maxStepsPerUpdate.toNat 1

variable {settings : Settings}

/-- **Every operation keeps the settings, and the clock that is made for them.** -/
theorem Timed.perform {operation : Operation} (h : s.Timed settings)
    (ht : s.perform operation = .ok t) : t.Timed settings := by
  cases operation with
  | append id =>
    obtain rfl := Except.ok.inj ht
    rw [append]
    split
    · exact h
    · split <;> exact h
  | removeAt | clearProgram | drainEvents =>
    obtain rfl := Except.ok.inj ht
    exact h
  | run =>
    obtain rfl := Except.ok.inj ht
    rw [run]
    split <;> exact h
  | reset =>
    obtain rfl := Except.ok.inj ht
    obtain ⟨_, _, -, heq⟩ := s.exists_reset
    rw [heq]
    exact h
  | load variant =>
    obtain ⟨template, source, hroll, -⟩ := Template.exists_roll variant s.play.source
    obtain ⟨_, _, -, heq⟩ := exists_reset { s with play := { s.play with source } }
    simp only [Session.perform, load, hroll, ok_bind, heq] at ht
    obtain rfl := Except.ok.inj ht
    refine ⟨h.1, ?_⟩
    change max s.settings.maxStepsPerUpdate.toNat 1 = _
    rw [h.1]
  | update dt =>
    obtain ⟨n, -, heq, hloop⟩ := delivers_of_update ht
    have hmost := maxSteps_of_delivers hloop
    refine ⟨?_, hmost.trans ((s.pacer.kept_perform (.advance dt)).2.trans h.2)⟩
    rw [heq]
    exact h.1

theorem timed_create {variant : Variant} {seed : Seed} (h : create variant settings seed = .ok s) :
    s.Timed settings := by
  obtain ⟨_, -, heq⟩ := bind_eq_ok.mp h
  obtain rfl := Except.ok.inj heq
  exact ⟨rfl, rfl⟩

/-- **Steps come only while the clock runs, in bounded bursts, and with one interval at most left
behind.**  This is so for a pacer with any interval and any number of steps after any operations,
and so every feeding of every session ends, after as many steps as its settings allow. -/
theorem bursts_bounded (interval : Float32) (maxSteps : UInt32) (before : List Pacer.Operation)
    (variant : Variant) (settings : Settings) (seed : Seed) (operations : List Operation) :
    let p := (Pacer.new interval maxSteps).history before
    (∀ later, .start ∉ later → (Pacer.new interval maxSteps).handedOut later = 0 ∧
      p.cancel.handedOut later = 0) ∧
    (∀ dt stretch, (∀ operation ∈ stretch, operation.Idles) →
      (p.advance dt).handedOut stretch ≤ max 1 maxSteps.toNat) ∧
    (∀ dt, (p.drain dt).1 ≤ max 1 maxSteps.toNat ∧ Pacer.Delivers Pacer.Counts (p.drain dt).1
      (p.advance dt, 0) ((p.drain dt).2, (p.drain dt).1)) ∧
    (∀ q, p.running = true → p.nextDue = (false, q) → q.accumulator ≤ q.interval) ∧
    ∃ s s', create variant settings seed = .ok s ∧ s.history operations = .ok s' ∧
      ∀ dt, ∃ t n, s'.update dt = .ok t ∧ n ≤ max 1 settings.maxStepsPerUpdate.toNat ∧
        t = { s' with pacer := t.pacer, play := t.play } ∧
        Pacer.Delivers s'.Steps n (s'.pacer.advance dt, s'.play) (t.pacer, t.play) := by
  intro p
  obtain ⟨hinterval, hmost⟩ := (Pacer.new interval maxSteps).kept_history before
  have hmost : p.maxSteps = max 1 maxSteps.toNat := hmost.trans (max_comm _ _)
  refine ⟨fun later hlater => ⟨Pacer.handedOut_of_not_running rfl hlater,
    Pacer.handedOut_of_not_running rfl hlater⟩, fun dt stretch hidle => ?_, fun dt => ?_,
    fun q hruns hnone => ?_, ?_⟩
  · rw [← hmost, ← (p.kept_perform (.advance dt)).2]
    exact Pacer.handedOut_le hidle
  · rw [← hmost]
    exact p.delivers_drain dt
  · refine Pacer.accumulator_le_interval ?_ hruns hnone
    rw [hinterval]
    exact Pacer.isNaN_interval_new interval maxSteps
  · obtain ⟨s, hcreate, -, -, hs⟩ := exists_create variant settings seed
    obtain ⟨path, -, -, hhistory⟩ := hs.exists_chronicle operations
    have htimed := history_induction (fun h => h.perform) (timed_create hcreate) hhistory
    have hlast := hs.of_history hhistory
    refine ⟨s, _, hcreate, hhistory, fun dt => ?_⟩
    obtain ⟨path', -, -, hupdate⟩ := hlast.exists_chronicle [.update dt]
    rw [history, List.foldlM_cons] at hupdate
    obtain ⟨t, ht, -⟩ := bind_eq_ok.mp hupdate
    obtain ⟨n, hn, hsame, hloop⟩ := delivers_of_update ht
    exact ⟨t, n, ht, hn.trans (htimed.2.trans (max_comm _ _)).le, hsame, hloop⟩

end BlockCoding.Session
