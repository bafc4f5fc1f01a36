import BlockCoding.Proofs.Session.Lifecycle

/-!
# Proofs/Session/Ledger — every win is called back once, and paid for

A `Ledger` is what an onlooker writes down who sees the states and the events of a session and not
its runs: how many runs were launched, what the current one has picked up, and what is due for each
entry into the state of winning.  `Ledger.Agrees` ties it to a session, and every passage keeps the
two together (`Agrees.of_passes`).  Hence the callbacks of a session are what its ledger says, at
every moment of every history (`callbacks_recorded`).
-/

namespace BlockCoding

/-! ## What an onlooker sees -/

/-- What a win of a variant pays, by the collectibles picked up in the run. -/
def Variant.prize (pickups : Nat) : Variant → Nat
  | .maze _ => pickups
  | .ruins => 100
  | .miner | .flight | .orchard => 50

namespace Session

/-- The events raised from one moment to the next. -/
def raised (s s' : Session) : List Event := s'.play.events.drop s.play.events.length

/-- The number of pickups among them. -/
def pickups (s s' : Session) : Nat := (s.raised s').countP Event.isCollected

/-- Whether the next moment is the first in a state. -/
def Enters (s : Session) (state : SessionState) (s' : Session) : Prop :=
  s.state ≠ state ∧ s'.state = state

instance (s : Session) (state : SessionState) (s' : Session) : Decidable (s.Enters state s') :=
  inferInstanceAs (Decidable (_ ∧ _))

end Session

/-- What is due for a win: the run that was won, and what it pays. -/
structure Payment where
  run : Nat
  amount : Nat
  deriving DecidableEq, Repr

/-- **The callbacks of a win**: the win itself, and then its amount, unless that is nothing. -/
def Payment.callbacks (p : Payment) : List Callback :=
  .win :: if p.amount = 0 then [] else [.collect (UInt32.ofNat p.amount)]

/-- What an onlooker has written down. -/
structure Ledger where
  /-- The number of runs launched. -/
  runs : Nat
  /-- The number of collectibles picked up in the current run. -/
  pickups : Nat
  /-- What is due, for every entry into the state of winning. -/
  payments : List Payment
  deriving DecidableEq, Repr

namespace Ledger

/-- Nothing has been seen. -/
def blank : Ledger := ⟨0, 0, []⟩

/-- **Writes down what is seen from one moment to the next.** -/
def note (l : Ledger) (s s' : Session) : Ledger :=
  if s.Enters .running s' then { l with runs := l.runs + 1, pickups := 0 }
  else
    let pickups := l.pickups + s.pickups s'
    if s.Enters .win s' then
      { l with pickups, payments := l.payments ++ [⟨l.runs, s'.variant.prize pickups⟩] }
    else { l with pickups }

/-- Writes down what is seen along a sequence of moments. -/
def along (l : Ledger) : Session → List Session → Ledger
  | _, [] => l
  | s, s' :: later => (l.note s s').along s' later

/-- The callbacks that are due in all. -/
def callbacks (l : Ledger) : List Callback := l.payments.flatMap Payment.callbacks

/-- What is paid in all. -/
def total (l : Ledger) : Nat := (l.payments.map Payment.amount).sum

/-! ## The ledger and the session -/

/-- **The ledger tells what the session has done.** -/
structure Agrees (l : Ledger) (s : Session) : Prop where
  callbacks_eq : s.play.callbacks = l.callbacks
  collected : ∀ r, s.play.run = some (.grid r) → s.state.isBusy = true →
    r.context.collected.size = l.pickups
  recorded : ∀ p ∈ l.payments, p.run ≤ l.runs ∧ p.amount < 2 ^ 32
  unpaid : s.state.isBusy = true → ∀ p ∈ l.payments, p.run < l.runs
  increasing : l.payments.Pairwise (·.run < ·.run)

namespace Agrees

variable {l : Ledger} {s s' : Session}

/-- A new run: nothing is picked up, and nothing is due for it. -/
theorem of_launch (h : l.Agrees s) (hlaunch : s.Enters .running s')
    (hcallbacks : s'.play.callbacks = s.play.callbacks)
    (hnone : ∀ r, s'.play.run = some (.grid r) → r.context.collected.size = 0) :
    (l.note s s').Agrees s' := by
  rw [note, if_pos hlaunch]
  refine ⟨hcallbacks.trans h.callbacks_eq, fun r hr _ => hnone r hr, ?_, ?_, h.increasing⟩
  · intro p hp
    obtain ⟨hrun, hamount⟩ := h.recorded p hp
    exact ⟨Nat.le_succ_of_le hrun, hamount⟩
  · intro _ p hp
    exact Nat.lt_succ_of_le (h.recorded p hp).1

/-- Neither a new run nor a win: what is picked up is added. -/
theorem of_other (h : l.Agrees s) (hlaunch : ¬ s.Enters .running s') (hwin : ¬ s.Enters .win s')
    (hcallbacks : s'.play.callbacks = s.play.callbacks)
    (hbusy : s'.state.isBusy = true → s.state.isBusy = true)
    (hcollected : ∀ r, s'.play.run = some (.grid r) → s'.state.isBusy = true →
      r.context.collected.size = l.pickups + s.pickups s') :
    (l.note s s').Agrees s' := by
  rw [note, if_neg hlaunch]
  dsimp only
  rw [if_neg hwin]
  exact ⟨hcallbacks.trans h.callbacks_eq, hcollected, h.recorded,
    fun hs' => h.unpaid (hbusy hs'), h.increasing⟩

end Agrees

end Ledger

/-! ## What a win pays -/

/-- **A run pays the prize of its variant.** -/
theorem ActiveRun.Fits.reward_eq {variant : Variant} {run : ActiveRun} (h : run.Fits variant)
    {pickups : Nat} (hpickups : ∀ r, run = .grid r → r.context.collected.size = pickups) :
    run.reward = UInt32.ofNat (variant.prize pickups) ∧ variant.prize pickups < 2 ^ 32 := by
  cases h with
  | @grid _ r ruled sound =>
    obtain rfl := hpickups r rfl
    have hlt := sound.size_lt
    rcases variant with _ | _ | _ | _ | _
    · rw [reward, ← Option.some.inj ruled]
      exact ⟨rfl, hlt⟩
    · rw [reward, ← Option.some.inj ruled]
      exact ⟨rfl, (by decide : 100 < 2 ^ 32)⟩
    · rw [reward, ← Option.some.inj ruled]
      exact ⟨rfl, (by decide : 50 < 2 ^ 32)⟩
    · cases ruled
    · cases ruled
  | flight | orchard => exact ⟨rfl, (by decide : 50 < 2 ^ 32)⟩

/-- The callbacks of a win are those of its payment. -/
theorem Payment.callbacks_eq {run amount : Nat} (h : amount < 2 ^ 32) :
    Play.payout (UInt32.ofNat amount) = Payment.callbacks ⟨run, amount⟩ := by
  have hiff : (0 < UInt32.ofNat amount) ↔ amount ≠ 0 := by
    rw [UInt32.lt_iff_toNat_lt, UInt32.toNat_ofNat_of_lt' h, UInt32.toNat_zero]
    exact Nat.pos_iff_ne_zero
  rw [Play.payout, callbacks]
  by_cases hzero : amount = 0
  · rw [if_neg (fun hpos => hiff.mp hpos hzero), if_pos hzero]
  · rw [if_pos (hiff.mpr hzero), if_neg hzero]

namespace Ledger.Agrees

variable {l : Ledger} {s s' : Session}

/-- A win: what it pays is due, and called back. -/
theorem of_win (h : l.Agrees s) (hbusy : s.state.isBusy = true) (hwin : s'.state = .win)
    {run : ActiveRun} (hfits : run.Fits s'.variant)
    (hcallbacks : s'.play.callbacks = s.play.callbacks ++ Play.payout run.reward)
    (hcollected : ∀ r, run = .grid r →
      r.context.collected.size = l.pickups + s.pickups s') :
    (l.note s s').Agrees s' := by
  obtain ⟨hreward, hlt⟩ := hfits.reward_eq hcollected
  have hnotrunning : ¬ s.Enters .running s' := by
    rintro ⟨-, hrunning⟩
    rw [hwin] at hrunning
    cases hrunning
  have henters : s.Enters .win s' := by
    refine ⟨fun hs => ?_, hwin⟩
    rw [hs] at hbusy
    cases hbusy
  have hidle : ¬ s'.state.isBusy = true := by
    rw [hwin]
    exact Bool.false_ne_true
  rw [note, if_neg hnotrunning]
  dsimp only
  rw [if_pos henters]
  refine ⟨?_, fun r _ hs' => absurd hs' hidle, ?_, fun hs' => absurd hs' hidle, ?_⟩
  · rw [hcallbacks, h.callbacks_eq, hreward, Payment.callbacks_eq hlt, callbacks, callbacks,
      List.flatMap_append, List.flatMap_singleton]
  · intro p hp
    rcases List.mem_append.mp hp with hp | hp
    · exact h.recorded p hp
    · obtain rfl := List.mem_singleton.mp hp
      exact ⟨Nat.le_refl _, hlt⟩
  · refine List.pairwise_append.mpr ⟨h.increasing, List.pairwise_singleton _ _, ?_⟩
    intro p hp q hq
    obtain rfl := List.mem_singleton.mp hq
    exact h.unpaid hbusy p hp

end Ledger.Agrees

/-! ## What a passage raises -/

namespace Session

variable {s s' : Session}

theorem not_enters_of_state_eq (h : s'.state = s.state) (state : SessionState) :
    ¬ s.Enters state s' := fun henters => henters.1 (h.symm.trans henters.2)

/-- What is added to the buffer is raised. -/
theorem raised_of_events {raised : List Event}
    (h : s'.play.events = s.play.events ++ raised) : s.raised s' = raised := by
  rw [Session.raised, h, List.drop_left]

theorem pickups_of_events {raised : List Event}
    (h : s'.play.events = s.play.events ++ raised) :
    s.pickups s' = raised.countP Event.isCollected := by
  rw [pickups, raised_of_events h]

theorem pickups_of_events_eq (h : s'.play.events = s.play.events) : s.pickups s' = 0 :=
  pickups_of_events (h.trans (List.append_nil _).symm)

theorem Still.pickups_eq (h : s.Still s') : s.pickups s' = 0 := by
  rcases h.events with hsame | hnone
  · exact pickups_of_events_eq hsame
  · rw [pickups, raised, hnone, List.drop_nil]
    rfl

end Session

theorem ActiveRun.countP_announcement (run : ActiveRun) (verdict : Verdict) :
    (run.announcement verdict).countP Event.isCollected = 0 := by
  rcases run with _ | _ | _ <;> rfl

/-- A step of a grid run collects what it announces. -/
theorem ActiveRun.Advanced.exists_grid {run : ActiveRun} {t : Tick ActiveRun Pcg}
    (h : run.Advanced t) {r' : GridRun} (hr : t.state = .grid r') :
    ∃ r, run = .grid r ∧ r'.context.collected.size
      = r.context.collected.size + t.events.countP Event.isCollected := by
  cases h with
  | grid source collected =>
    obtain rfl := ActiveRun.grid.inj hr
    exact ⟨_, rfl, collected⟩
  | flight | orchard => cases hr

namespace Ledger.Agrees

variable {l : Ledger} {s s' : Session}

/-- After a step of the run under way, the run has collected what was picked up. -/
theorem collected_of_advance (h : l.Agrees s) (hs : s.Consistent) (hrunning : s.state = .running)
    {run : ActiveRun} (hrun : s.play.run = some run) {t : Tick ActiveRun Pcg}
    (ht : run.advance s.play.source = .ok t) {raised : List Event}
    (hevents : s'.play.events = s.play.events ++ t.events ++ raised)
    (hraised : raised.countP Event.isCollected = 0) {r : GridRun} (hr : t.state = .grid r) :
    r.context.collected.size = l.pickups + s.pickups s' := by
  obtain ⟨hfits, hnone⟩ := hs.under_way hrunning hrun
  obtain ⟨-, hadvanced⟩ := hfits.of_advance hnone ht
  obtain ⟨r₀, hr₀, hsize⟩ := hadvanced.exists_grid hr
  have hbusy : s.state.isBusy = true := congrArg SessionState.isBusy hrunning
  rw [List.append_assoc] at hevents
  rw [Session.pickups_of_events hevents, List.countP_append, hraised, hsize,
    h.collected r₀ (by rw [hrun, hr₀]) hbusy]
  rfl

/-- The verdict of a run under way: a win is paid for at once or celebrated, a failure not. -/
theorem of_concluded (h : l.Agrees s) (hs : s.Consistent) (hrunning : s.state = .running)
    {run : ActiveRun} (hrun : s.play.run = some run) {t : Tick ActiveRun Pcg}
    (ht : run.advance s.play.source = .ok t) {verdict : Verdict}
    (hplay : s'.play = ((s.play.after t).conclude s.template.celebrates t.state verdict).1)
    (hvariant : s'.variant = s.variant) : (l.note s s').Agrees s' := by
  obtain ⟨-, -, hrewarded, -⟩ := hs.shape_of_state hrunning
  obtain ⟨hfits, hnone⟩ := hs.under_way hrunning hrun
  obtain ⟨hfits', -⟩ := hfits.of_advance hnone ht
  have hquiet := t.state.countP_announcement verdict
  have hnot : ¬ s.Enters .running s' := fun henters => henters.1 hrunning
  have hbusy : s.state.isBusy = true := congrArg SessionState.isBusy hrunning
  -- only a win without celebration enters the state of winning, so only that is paid for
  rcases verdict with _ | cause
  · rcases hcelebrates : s.template.celebrates with _ | _ <;> rw [hcelebrates] at hplay
    · refine h.of_win hbusy ?_ (hvariant ▸ hfits') ?_ fun r hr =>
        h.collected_of_advance hs hrunning hrun ht ?_ hquiet hr
      · rw [Session.state, hplay]
        exact Play.state_enterWin _
      · rw [hplay]
        exact Play.callbacks_enterWin hrewarded
      · rw [hplay]
        exact Play.events_enterWin _
    · have hstate : s'.state = .celebrating := congrArg Play.state hplay
      refine h.of_other hnot ?_ (by rw [hplay]; rfl) (fun _ => hbusy) ?_
      · rintro ⟨-, hwin⟩
        rw [hstate] at hwin
        cases hwin
      · intro r hr _
        rw [hplay] at hr
        have hevents := (congrArg Play.events hplay).trans (List.append_assoc _ _ _)
        exact h.collected_of_advance hs hrunning hrun ht hevents
          (by rw [List.countP_append, hquiet]; rfl) (Option.some.inj hr)
  · have hstate : s'.state = .fail := congrArg Play.state hplay
    refine h.of_other hnot ?_ (by rw [hplay]; rfl) (fun _ => hbusy) ?_
    · rintro ⟨-, hwin⟩
      rw [hstate] at hwin
      cases hwin
    · intro r _ hbusy'
      rw [hstate] at hbusy'
      cases hbusy'

/-- **Every passage is written down as it happens.** -/
theorem of_passes (h : l.Agrees s) (hs : s.Consistent) (hp : s.Passes s') :
    (l.note s s').Agrees s' := by
  cases hp with
  | still same =>
    have hnot := Session.not_enters_of_state_eq same.state_eq
    refine h.of_other (hnot _) (hnot _) same.callbacks_eq ?_ ?_
    · rw [same.state_eq]
      exact id
    · rw [same.run_eq, same.state_eq, same.pickups_eq]
      exact h.collected
  | launched idle =>
    refine h.of_launch ⟨?_, rfl⟩ rfl ?_
    · rw [idle]
      nofun
    · intro r hr
      obtain ⟨-, -, hnone⟩ := ActiveRun.fits_launch hs.world s.program
      rw [Option.some.inj hr] at hnone
      exact hnone
  | @advanced run t pacer running current tick ongoing ticking =>
    have hnot := @Session.not_enters_of_state_eq s
      { s with pacer, play := s.play.after t } rfl
    refine h.of_other (hnot _) (hnot _) rfl id ?_
    intro r hr _
    exact h.collected_of_advance hs running current tick (List.append_nil _).symm rfl
      (Option.some.inj hr)
  | concluded running current tick ended ticking =>
    exact h.of_concluded hs running current tick rfl rfl
  | @declared pacer celebrating stopped =>
    obtain ⟨⟨r, hr, -⟩, -, hrewarded, -⟩ := hs.shape_of_state celebrating
    have hbusy : s.state.isBusy = true := congrArg SessionState.isBusy celebrating
    refine h.of_win hbusy (Play.state_enterWin _) (hs.run _ hr) ?_ ?_
    · rw [Play.callbacks_enterWin hrewarded, hr]
      rfl
    · intro r' hr'
      obtain rfl := ActiveRun.grid.inj hr'
      rw [Session.pickups_of_events_eq (Play.events_enterWin _)]
      exact h.collected r hr hbusy
  | returned world unfrozen stopped =>
    refine h.of_other ?_ ?_ rfl ?_ ?_
    · rintro ⟨-, hstate⟩
      cases hstate
    · rintro ⟨-, hstate⟩
      cases hstate
    · intro hbusy
      cases hbusy
    · intro r hr
      cases hr

/-- Along passages the ledger goes on telling what the session does. -/
theorem along (h : l.Agrees s) (hs : s.Consistent) {path : List Session}
    (hpath : (s :: path).IsChain Session.Passes) : (l.along s path).Agrees (path.getLastD s) := by
  induction path generalizing l s with
  | nil => exact h
  | cons m path ih =>
    obtain ⟨hm, hpath⟩ := List.isChain_cons_cons.mp hpath
    rw [List.getLastD_cons]
    exact ih (h.of_passes hs hm) (hs.of_passes hm) hpath

end Ledger.Agrees

/-- **Nothing is called back but for a win.** -/
theorem Session.Passes.callbacks_eq {s s' : Session} (h : s.Passes s')
    (hwin : ¬ s.Enters .win s') : s'.play.callbacks = s.play.callbacks := by
  cases h with
  | still same => exact same.callbacks_eq
  | launched | advanced | returned => rfl
  | @concluded run t verdict pacer running =>
    rcases verdict with _ | cause
    · rcases hcelebrates : s.template.celebrates with _ | _
      · refine absurd ⟨?_, ?_⟩ hwin
        · rw [running]
          nofun
        · rw [hcelebrates]
          exact Play.state_enterWin _
      · rfl
    · rfl
  | declared celebrating =>
    refine absurd ⟨?_, Play.state_enterWin _⟩ hwin
    rw [celebrating]
    nofun

/-! ## The record of progress -/

namespace Progress

/-- A record with so many more wins, and so many more units. -/
def gain (record : Progress) (wins units : Nat) : Progress :=
  { coins := record.coins + UInt64.ofNat units
    score := record.score + UInt64.ofNat (10 * units)
    wins := record.wins + UInt32.ofNat wins }

theorem gain_gain (record : Progress) (wins units wins' units' : Nat) :
    (record.gain wins units).gain wins' units' = record.gain (wins + wins') (units + units') := by
  simp only [gain, Nat.mul_add, UInt64.ofNat_add, UInt32.ofNat_add, UInt64.add_assoc,
    UInt32.add_assoc]

/-- **A record whose totals have to fit receives the same**, or one of them overflows. -/
theorem foldlM_receive?_ok_or_overflow (record : Progress) (calls : List Callback) :
    calls.foldlM receive? record = .ok (calls.foldl receive record) ∨
      calls.foldlM receive? record = .error .overflow := by
  have hfolds : calls.foldlM (fun r call => (pure (receive r call) : Except Fault Progress)) record
      = .ok (calls.foldl receive record) := List.foldlM_pure
  refine foldlM_ok_or_overflow (fun {r call r'} hnext => ?_) hfolds
  obtain rfl := Except.ok.inj hnext
  cases call <;> rw [receive?] <;> exact fitting_ok_or_overflow _ _

/-- The callbacks of a win add the win and its amount. -/
theorem foldl_receive_callbacks (record : Progress) {p : Payment} (h : p.amount < 2 ^ 32) :
    p.callbacks.foldl receive record = record.gain 1 p.amount := by
  have hunits : (UInt32.ofNat p.amount).toUInt64 = UInt64.ofNat p.amount := by
    rw [← UInt64.toNat_inj, UInt32.toNat_toUInt64, UInt32.toNat_ofNat_of_lt' h,
      UInt64.toNat_ofNat_of_lt' (by simp [UInt64.size] at *; omega)]
  have hscore : UInt64.ofNat p.amount * scorePerUnit = UInt64.ofNat (10 * p.amount) := by
    rw [Nat.mul_comm, UInt64.ofNat_mul]
    rfl
  rw [Payment.callbacks]
  by_cases hzero : p.amount = 0
  · rw [if_pos hzero, gain, hzero]
    simp [receive]
  · rw [if_neg hzero, List.foldl_cons, List.foldl_cons, List.foldl_nil, gain, receive, receive,
      hunits, hscore]
    rfl

/-- **The callbacks of some wins add up.** -/
theorem foldl_receive_flatMap (record : Progress) :
    ∀ payments : List Payment, (∀ p ∈ payments, p.amount < 2 ^ 32) →
      (payments.flatMap Payment.callbacks).foldl receive record
        = record.gain payments.length (payments.map Payment.amount).sum
  | [], _ => by simp [gain]
  | p :: payments, h => by
    have hp := h p List.mem_cons_self
    have hrest : ∀ q ∈ payments, q.amount < 2 ^ 32 := fun q hq => h q (List.mem_cons_of_mem _ hq)
    rw [List.flatMap_cons, List.foldl_append, foldl_receive_callbacks record hp,
      foldl_receive_flatMap _ payments hrest, gain_gain, List.length_cons, List.map_cons,
      List.sum_cons, Nat.add_comm 1]

end Progress

/-! ## Every history -/

namespace Session

/-- **Every win is called back once, and paid for once.**  Whatever the variant, the settings and
the operations: at every moment the callbacks are what the ledger says, a win for each entry into
the state of winning and its amount right after it, unless that is nothing; between moments that do
not enter that state nothing is called back; no run is paid for twice; and whoever keeps a record
gains the wins, the amounts and ten times their sum, as long as the totals fit into their words. -/
theorem callbacks_recorded (variant : Variant) (settings : Settings) (seed : Seed)
    (operations : List Operation) :
    ∃ s path, create variant settings seed = .ok s ∧ s.chronicle operations = .ok path ∧
      s.history operations = .ok (path.getLastD s) ∧
      (∀ n, ((path.take n).getLastD s).play.callbacks
        = (Ledger.blank.along s (path.take n)).callbacks) ∧
      (s :: path).IsChain (fun a b => ¬ a.Enters .win b → b.play.callbacks = a.play.callbacks) ∧
      (Ledger.blank.along s path).payments.Pairwise (·.run < ·.run) ∧
      (∀ p ∈ (Ledger.blank.along s path).payments, p.amount < 2 ^ 32) ∧
      ∀ record,
        let gained := record.gain (Ledger.blank.along s path).payments.length
          (Ledger.blank.along s path).total
        (path.getLastD s).play.callbacks.foldl Progress.receive record = gained ∧
          ((path.getLastD s).play.callbacks.foldlM Progress.receive? record = .ok gained ∨
            (path.getLastD s).play.callbacks.foldlM Progress.receive? record
              = .error .overflow) := by
  obtain ⟨s, hcreate, hidle, hnone, h⟩ := exists_create variant settings seed
  obtain ⟨path, hpath, hchain, hhistory⟩ := h.exists_chronicle operations
  have hnotbusy : ¬ s.state.isBusy = true := by
    rw [hidle]
    exact Bool.false_ne_true
  have hblank : Ledger.blank.Agrees s :=
    ⟨hnone, fun _ _ hbusy => absurd hbusy hnotbusy, nofun, nofun, .nil⟩
  have hall := hblank.along h hchain
  have hamounts : ∀ p ∈ (Ledger.blank.along s path).payments, p.amount < 2 ^ 32 :=
    fun p hp => (hall.recorded p hp).2
  refine ⟨s, path, hcreate, hpath, hhistory, ?_, hchain.imp fun _ _ hp => hp.callbacks_eq,
    hall.increasing, hamounts, ?_⟩
  · intro n
    have htake : (s :: path.take n).IsChain Passes := by
      rw [← List.take_append_drop n path, ← List.cons_append] at hchain
      exact hchain.left_of_append
    exact (hblank.along h htake).callbacks_eq
  · intro record gained
    have hgained : (path.getLastD s).play.callbacks.foldl Progress.receive record = gained := by
      rw [hall.callbacks_eq, Ledger.callbacks, Progress.foldl_receive_flatMap record _ hamounts]
      rfl
    refine ⟨hgained, ?_⟩
    rw [← hgained]
    exact Progress.foldlM_receive?_ok_or_overflow record _

end Session

end BlockCoding
