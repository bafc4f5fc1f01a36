import BlockCoding.Proofs.Run.Stepping

/-!
# Proofs/Run/Seeking — the search for the next action, and where it leaves the cursor

The next action is searched round by round: `seekRound` looks at the block at the cursor and either
ends the search or moves on.  No round moves on past the last block (`lt_of_seekRound`), so the
search comes to an end, and what it finds is what `fetchFrom` reads off the rest of the program
(`seek_eq`).  Fetching takes the head of what remains and leaves the tail (`fetch_follows`), and a
step leaves cursor and pending repeat as the fetch has left them (`exists_of_step`).  Hence, in
every state that stepping reaches on whatever grid, what remains is the expansion of the program
without one action for each step up to the verdict (`cursor_follows_expansion`).
-/

namespace BlockCoding

/-! ## Round by round -/

/-- What one round of the search for the next action comes to. -/
inductive Round where
  /-- The search is over. -/
  | ended (found : Fetched)
  /-- The block at the cursor asks for nothing; the search goes on at `next`. -/
  | onward (next : Nat)
  deriving DecidableEq, Repr

/-- **One round of the search**: it looks at the block at the cursor, and at the one after it if
that is a repeat. -/
def seekRound (program : List Action) (cursor : Nat) (executing : Option Nat) : Round :=
  match program[cursor]? with
  | none => .ended ⟨none, cursor, none, executing⟩
  | some (.repeatNext n) =>
    match program[cursor + 1]? with
    | none => .onward (cursor + 1)
    | some body =>
      if n = 0 then .onward (cursor + 2)
      else if n = 1 then .ended ⟨some body, cursor + 2, none, some cursor⟩
      else .ended ⟨some body, cursor, some ⟨body, n - 1⟩, some cursor⟩
  | some action => .ended ⟨some action, cursor + 1, none, some cursor⟩

/-- The search for the next action, given up if it is not over after so many rounds. -/
def seek (program : List Action) : Nat → Nat → Option Nat → Option Fetched
  | 0, _, _ => none
  | rounds + 1, cursor, executing =>
    match seekRound program cursor executing with
    | .ended found => some found
    | .onward next => seek program rounds next (some cursor)

/-- **A round that moves on has looked at a block**, and moves behind it. -/
theorem lt_of_seekRound {program : List Action} {cursor next : Nat} {executing : Option Nat}
    (h : seekRound program cursor executing = .onward next) :
    cursor < next ∧ cursor < program.length := by
  rw [seekRound] at h
  split at h
  · cases h
  · next n hblock =>
    refine ⟨?_, (List.getElem?_eq_some_iff.mp hblock).1⟩
    split at h
    · cases h
      exact Nat.lt_succ_self cursor
    · split_ifs at h
      cases h
      omega
  · cases h

/-- What a round finds, or the rounds after it, is what there is to find in the rest of the
program. -/
theorem fetchFrom_drop (program : List Action) (cursor : Nat) (executing : Option Nat) :
    fetchFrom cursor executing (program.drop cursor) =
      match seekRound program cursor executing with
      | .ended found => found
      | .onward next => fetchFrom next (some cursor) (program.drop next) := by
  -- A round reads the program at indices, and the other side reads the rest as a list.
  generalize hrest : program.drop cursor = rest
  have hblock : program[cursor]? = rest[0]? := getElem?_add_of_drop hrest 0
  have hbody : program[cursor + 1]? = rest[1]? := getElem?_add_of_drop hrest 1
  have hnext : program.drop (cursor + 1) = rest.drop 1 := drop_add_of_drop hrest 1
  have hskip : program.drop (cursor + 2) = rest.drop 2 := drop_add_of_drop hrest 2
  fun_cases fetchFrom cursor executing rest with
  | case1 => simp [seekRound, hblock]
  | case2 body rest => simp [seekRound, hblock, hbody, hskip]
  | case3 body rest => simp [seekRound, hblock, hbody]
  | case4 n body rest hzero hone => simp [seekRound, hblock, hbody, hzero, hone]
  | case5 n => simp [seekRound, hblock, hbody, hnext, fetchFrom]
  | case6 action rest hrepeat hlast =>
    have hplain := ne_repeatNext hrepeat hlast
    cases action with
    | repeatNext n => exact absurd rfl (hplain n)
    | _ => simp [seekRound, hblock]

/-- **The search comes to an end**, one round after the last block at the latest, and finds what
there is to find in the rest of the program.  The induction is on the rounds that are allowed; each
that moves on leaves fewer blocks ahead. -/
theorem seek_eq {program : List Action} {rounds cursor : Nat} (executing : Option Nat)
    (h : program.length - cursor < rounds) :
    seek program rounds cursor executing
      = some (fetchFrom cursor executing (program.drop cursor)) := by
  induction rounds generalizing cursor executing with
  | zero => exact absurd h (Nat.not_lt_zero _)
  | succ rounds ih =>
    rw [seek, fetchFrom_drop]
    cases hround : seekRound program cursor executing with
    | ended found => rfl
    | onward next =>
      obtain ⟨hmoved, hlooked⟩ := lt_of_seekRound hround
      exact ih (some cursor) (by omega)

/-- A repeat of no times and one without a body: nothing is found, in the third round. -/
example : seek [.repeatNext 0, .moveUp, .repeatNext 2] 3 0 none = some ⟨none, 3, none, some 2⟩ :=
  rfl

namespace GridRun

/-! ## Step by step -/

/-- **A step that goes well leaves the cursor where its fetch has left it**, whatever the grid. -/
theorem exists_of_step {r r' : GridRun} {events : List Event} (hv : r.verdict = none)
    (h : r.step = .ok (events, r')) :
    ∃ world context trace verdict, r' = { r.fetch.2 with world, context, trace, verdict } := by
  rcases hfetch : r.fetch with ⟨found, q⟩
  simp only [step, hv, hfetch] at h
  cases found with
  | none =>
    obtain ⟨-, rfl⟩ := Prod.mk.inj (Except.ok.inj h)
    exact ⟨q.world, q.context, q.trace, some (.fail .incomplete), rfl⟩
  | some action =>
    obtain ⟨outcome, -, h⟩ := bind_eq_ok.mp h
    cases outcome with
    | rejected cause =>
      obtain ⟨-, rfl⟩ := Prod.mk.inj (Except.ok.inj h)
      exact ⟨q.world, q.context, q.trace, some (.fail cause), rfl⟩
    | performed world context raised =>
      obtain ⟨due, -, h⟩ := bind_eq_ok.mp h
      cases due with
      | none =>
        obtain ⟨-, rfl⟩ := Prod.mk.inj (Except.ok.inj h)
        exact ⟨world, context, q.trace ++ [context.pos], q.verdict, rfl⟩
      | some verdict =>
        obtain ⟨-, rfl⟩ := Prod.mk.inj (Except.ok.inj h)
        exact ⟨world, context, q.trace ++ [context.pos], some verdict, rfl⟩

/-- **A run of a program with so many actions of its expansion behind it.** -/
structure Past (program : List Action) (taken : Nat) (r : GridRun) : Prop where
  program_eq : r.program = program
  remaining_eq : r.remaining = (expansion program).drop taken
  coherent : r.Coherent

variable {program : List Action} {taken : Nat} {r r' : GridRun}

theorem past_start (g : Grid) (rules : Rules) (program : List Action) :
    Past program 0 (start g rules program) :=
  ⟨rfl, rfl, coherent_start g rules program⟩

/-- A step leaves one action more behind. -/
theorem Past.step {events : List Event} (h : Past program taken r) (hv : r.verdict = none)
    (hs : r.step = .ok (events, r')) : Past program (taken + 1) r' := by
  obtain ⟨world, context, trace, verdict, rfl⟩ := exists_of_step hv hs
  have hfollows := fetch_follows h.coherent
  obtain ⟨cursor, pending, executing, hframe⟩ := hfollows.frame
  have hleft : r.fetch.2.remaining = (expansion program).drop (taken + 1) := by
    rw [hfollows.remaining_eq, h.remaining_eq, List.tail_drop]
  have hprogram : r.fetch.2.program = program := by rw [hframe]; exact h.program_eq
  exact ⟨hprogram, hleft, hfollows.coherent⟩

/-- **Stepping leaves one action behind with each step**, as long as there is no verdict. -/
theorem Past.stepTimes {n : Nat} {told : List Event} {q : GridRun} (h : Past program taken r)
    (hn : stepTimes n r = .ok (told, q)) :
    ∃ k ≤ n, Past program (taken + k) q ∧ (q.verdict = none → k = n) := by
  induction n generalizing r taken told with
  | zero =>
    obtain ⟨-, rfl⟩ := Prod.mk.inj (Except.ok.inj hn)
    exact ⟨0, Nat.le_refl 0, h, fun _ => rfl⟩
  | succ n ih =>
    cases hv : r.verdict with
    | some verdict =>
      rw [stepTimes_of_verdict hv] at hn
      obtain ⟨-, rfl⟩ := Prod.mk.inj (Except.ok.inj hn)
      exact ⟨0, Nat.zero_le _, h, fun hnone => absurd (hv.symm.trans hnone) nofun⟩
    | none =>
      rw [GridRun.stepTimes] at hn
      obtain ⟨⟨now, next⟩, hstep, hn⟩ := bind_eq_ok.mp hn
      obtain ⟨⟨later, last⟩, hlater, hn⟩ := bind_eq_ok.mp hn
      obtain ⟨-, rfl⟩ := Prod.mk.inj (Except.ok.inj hn)
      obtain ⟨k, hk, hpast, hopen⟩ := ih (h.step hv hstep) hlater
      refine ⟨k + 1, Nat.succ_le_succ hk, ?_, fun hnone => congrArg _ (hopen hnone)⟩
      rwa [Nat.add_right_comm, Nat.add_assoc] at hpast

/-- **The cursor follows the expansion.**  In every state that stepping reaches, on whatever grid,
a pending repeat stands on its repeat block, with its body behind it and at least one copy due, but
fewer than the block asks for.  What remains is the expansion of the program without the actions
taken so far, one for each step up to the verdict; a fetch takes the first of what remains and
leaves the others, and finds nothing exactly if nothing remains.  Without a pending repeat the fetch
is a search, which ends within as many rounds as there are blocks from the cursor on, and one
more. -/
theorem cursor_follows_expansion {g : Grid} {rules : Rules} {program : List Action} {n : Nat}
    {told : List Event} {q : GridRun} (h : stepTimes n (start g rules program) = .ok (told, q)) :
    q.program = program ∧
      (∀ p, q.pending = some p → ∃ times, program[q.cursor]? = some (.repeatNext times) ∧
        program[q.cursor + 1]? = some p.body ∧ 1 ≤ p.remaining ∧ p.remaining < times) ∧
      (∃ taken ≤ n, q.remaining = (expansion program).drop taken ∧
        (q.verdict = none → taken = n)) ∧
      q.Follows q.fetch ∧ (q.fetch.1 = none ↔ q.remaining = []) ∧
      (q.pending = none → ∀ rounds, program.length - q.cursor < rounds →
        ∃ found, seek program rounds q.cursor q.executing = some found ∧
          q.fetch = (found.action, q.goOn found)) := by
  obtain ⟨taken, htaken, ⟨hprogram, hleft, hcoherent⟩, hopen⟩ :=
    (past_start g rules program).stepTimes h
  rw [Nat.zero_add] at hleft
  have hfollows := fetch_follows hcoherent
  refine ⟨hprogram, fun p hp => ?_, ⟨taken, htaken, hleft, hopen⟩, hfollows, ?_,
    fun hpending rounds hrounds => ?_⟩
  · obtain ⟨times, hrepeat, hbody, hpos, hlt, -⟩ := hcoherent p hp
    rw [hprogram] at hrepeat hbody
    have hone : 1 ≤ p.remaining := UInt8.le_iff_toNat_le.mpr (UInt8.lt_iff_toNat_lt.mp hpos)
    exact ⟨times, hrepeat, hbody, hone, hlt⟩
  · rw [hfollows.action_eq, Option.map_eq_none_iff, List.head?_eq_none_iff]
  · refine ⟨_, seek_eq q.executing hrounds, ?_⟩
    rw [fetch_of_pending_none hpending, hprogram]

/-- Repeats of no times, of one time and of three times, and one without a body. -/
def mixedRepeats : List Action :=
  [.repeatNext 0, .moveUp, .repeatNext 1, .moveRight, .repeatNext 3, .moveRight, .repeatNext 2]

/-- Two steps along a corridor leave two of the three copies due, and one more fetch leaves one. -/
theorem cursor_follows_expansion_corridor :
    ∃ told q, stepTimes 2 (start (Grid.filled 8 1 .path ⟨0, 0⟩ .right) .maze mixedRepeats)
        = .ok (told, q) ∧
      q.verdict = none ∧ q.cursor = 4 ∧ q.pending = some ⟨.moveRight, 2⟩ ∧
      q.remaining = [(4, .moveRight), (4, .moveRight)] ∧ q.fetch.1 = some .moveRight ∧
      q.fetch.2.remaining = [(4, .moveRight)] := by
  obtain ⟨told, q, hsteps, hv, hcursor, hpending⟩ :
      ∃ told q, stepTimes 2 (start (Grid.filled 8 1 .path ⟨0, 0⟩ .right) .maze mixedRepeats)
          = .ok (told, q) ∧
        q.verdict = none ∧ q.cursor = 4 ∧ q.pending = some ⟨.moveRight, 2⟩ :=
    ⟨_, _, rfl, rfl, rfl, rfl⟩
  obtain ⟨-, -, ⟨taken, -, hleft, hopen⟩, hfollows, -⟩ := cursor_follows_expansion hsteps
  obtain rfl := hopen hv
  have hremaining : q.remaining = [(4, .moveRight), (4, .moveRight)] := hleft
  refine ⟨told, q, hsteps, hv, hcursor, hpending, hremaining, ?_, ?_⟩
  · rw [hfollows.action_eq, hremaining]
    rfl
  · rw [hfollows.remaining_eq, hremaining]
    rfl

end GridRun

end BlockCoding
