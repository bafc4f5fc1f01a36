import BlockCoding.Run.Basic

/-!
# Proofs/Run/Cursor — the cursor walks the expansion

A run keeps a cursor and perhaps a pending repeat; `GridRun.remaining` says which actions these
stand for.  `fetch_follows`: fetching takes the head of that list and leaves its tail, or finds
nothing where the list is empty.  What carries the argument is `GridRun.Coherent`: a pending repeat
stands on its own repeat block, with at least one copy still due.
-/

namespace BlockCoding

/-! ## Reading a program from the left -/

@[simp] theorem expansionFrom_nil (i : Nat) : expansionFrom i [] = [] := rfl

@[simp] theorem expansionFrom_trailing (i : Nat) (n : UInt8) :
    expansionFrom i [.repeatNext n] = [] := rfl

@[simp] theorem expansionFrom_repeat (i : Nat) (n : UInt8) (body : Action) (rest : List Action) :
    expansionFrom i (.repeatNext n :: body :: rest)
      = List.replicate n.toNat (i, body) ++ expansionFrom (i + 2) rest := rfl

/-- A block that is no repeat stands for itself. -/
theorem expansionFrom_plain (i : Nat) {action : Action} (rest : List Action)
    (h : ∀ n, action ≠ .repeatNext n) :
    expansionFrom i (action :: rest) = (i, action) :: expansionFrom (i + 1) rest := by
  cases action with
  | repeatNext n => exact absurd rfl (h n)
  | _ => simp [expansionFrom]

section Rest

variable {α : Type} {xs rest : List α} {i : Nat}

/-- What is left further on is left of the rest. -/
theorem drop_add_of_drop (h : xs.drop i = rest) (k : Nat) : xs.drop (i + k) = rest.drop k := by
  rw [← h, List.drop_drop]

/-- What stands further on stands in the rest. -/
theorem getElem?_add_of_drop (h : xs.drop i = rest) (k : Nat) : xs[i + k]? = rest[k]? := by
  rw [← h, List.getElem?_drop]

end Rest

/-! ## A pending repeat -/

namespace GridRun

/-- **A pending repeat stands on its repeat block**: the block after it is the body, and of the
copies at least one has been executed and at least one is still due. -/
def Coherent (r : GridRun) : Prop :=
  ∀ p, r.pending = some p → ∃ n, r.program[r.cursor]? = some (.repeatNext n) ∧
    r.program[r.cursor + 1]? = some p.body ∧ 0 < p.remaining ∧ p.remaining < n ∧
    r.executing = some r.cursor

theorem coherent_of_pending_none {r : GridRun} (h : r.pending = none) : r.Coherent :=
  fun p hp => by rw [h] at hp; cases hp

theorem coherent_start (world : Grid) (rules : Rules) (program : List Action) :
    (start world rules program).Coherent := coherent_of_pending_none rfl

theorem remaining_of_pending_none {r : GridRun} (h : r.pending = none) :
    r.remaining = expansionFrom r.cursor (r.program.drop r.cursor) := by
  rw [remaining, h]

theorem remaining_of_pending_some {r : GridRun} {p : PendingRepeat} (h : r.pending = some p) :
    r.remaining = List.replicate p.remaining.toNat (r.cursor, p.body) ++
      expansionFrom (r.cursor + 2) (r.program.drop (r.cursor + 2)) := by
  rw [remaining, h]

end GridRun

/-- Counting down by one leaves one less. -/
private theorem toNat_sub_one {n : UInt8} (h : n ≠ 0) : (n - 1).toNat + 1 = n.toNat := by
  have hpos : 0 < n.toNat := by rw [Nat.pos_iff_ne_zero]; exact fun h0 => h (UInt8.toNat_inj.mp h0)
  have hle : (1 : UInt8) ≤ n := UInt8.le_iff_toNat_le.mpr hpos
  rw [UInt8.toNat_sub_of_le _ _ hle]
  exact Nat.sub_add_cancel hpos

/-- The first of a positive number of copies. -/
theorem replicate_of_ne_zero {α : Type} {n : UInt8} (h : n ≠ 0) (a : α) :
    List.replicate n.toNat a = a :: List.replicate (n - 1).toNat a := by
  rw [← toNat_sub_one h, List.replicate_succ]

/-! ## Fetching -/

/-- What is neither a repeat with a body nor one without is no repeat. -/
theorem ne_repeatNext {action : Action} {rest : List Action}
    (hbody : ∀ n body rest', action = .repeatNext n → rest = body :: rest' → False)
    (hlast : ∀ n, action = .repeatNext n → rest = [] → False) (n : UInt8) :
    action ≠ .repeatNext n := fun h => by
  cases rest with
  | nil => exact hlast n h rfl
  | cons body rest' => exact hbody n body rest' h rfl

/-- Where nothing is seen there is nothing: no block is left, or a repeat without a body. -/
theorem expansionFrom_of_peekFrom_none {cursor : Nat} {program : List Action}
    (h : peekFrom program = none) : expansionFrom cursor program = [] := by
  fun_cases peekFrom program with
  | case1 => rfl
  | case2 n body rest => simp [peekFrom] at h
  | case3 n => rfl
  | case4 action rest hbody hlast => simp [peekFrom] at h

namespace GridRun

/-- A run that goes on where a fetch has left off. -/
def goOn (r : GridRun) (f : Fetched) : GridRun :=
  { r with cursor := f.cursor, pending := f.pending, executing := f.executing }

/-- Nothing is found where the rest of a program comes to nothing, and nothing is left there. -/
theorem fetchFrom_of_expansionFrom_nil (r : GridRun) {cursor : Nat} (executing : Option Nat)
    {program : List Action} (hdrop : r.program.drop cursor = program)
    (h : expansionFrom cursor program = []) :
    (fetchFrom cursor executing program).action = none ∧
      (fetchFrom cursor executing program).pending = none ∧
      (r.goOn (fetchFrom cursor executing program)).remaining = [] := by
  fun_induction fetchFrom cursor executing program with
  | case1 =>
    refine ⟨rfl, rfl, ?_⟩
    rw [remaining_of_pending_none rfl]
    simp [goOn, hdrop]
  | case2 cursor executing body rest ih =>
    exact ih (drop_add_of_drop hdrop 2) (by simpa using h)
  | case3 cursor executing body rest => simp at h
  | case4 cursor executing n body rest hzero hone =>
    rw [expansionFrom_repeat, replicate_of_ne_zero hzero] at h
    simp at h
  | case5 cursor executing n =>
    have hrest : r.program.drop (cursor + 1) = [] := drop_add_of_drop hdrop 1
    refine ⟨rfl, rfl, ?_⟩
    rw [remaining_of_pending_none rfl]
    simp [goOn, hrest]
  | case6 cursor executing action rest hbody hlast =>
    rw [expansionFrom_plain cursor rest (ne_repeatNext hbody hlast)] at h
    simp at h

/-- The first block that is found is the head of what the rest of the program comes to, and the
cursor is left at its tail.  The induction skips the repeats of no times. -/
theorem fetchFrom_of_expansionFrom_cons (r : GridRun) {cursor : Nat} (executing : Option Nat)
    {program : List Action} (hdrop : r.program.drop cursor = program) {i : Nat} {a : Action}
    {rest : List (Nat × Action)} (h : expansionFrom cursor program = (i, a) :: rest) :
    (fetchFrom cursor executing program).action = some a ∧
      (fetchFrom cursor executing program).executing = some i ∧
      (r.goOn (fetchFrom cursor executing program)).remaining = rest ∧
      (r.goOn (fetchFrom cursor executing program)).Coherent := by
  fun_induction fetchFrom cursor executing program with
  | case1 => simp at h
  | case2 cursor executing body rest' ih =>
    exact ih (drop_add_of_drop hdrop 2) (by simpa using h)
  | case3 cursor executing body rest' =>
    have hrest : r.program.drop (cursor + 2) = rest' := drop_add_of_drop hdrop 2
    rw [expansionFrom_repeat, replicate_of_ne_zero (by decide), List.cons_append, List.cons.injEq,
      Prod.mk.injEq] at h
    obtain ⟨⟨rfl, rfl⟩, rfl⟩ := h
    refine ⟨rfl, rfl, ?_, coherent_of_pending_none rfl⟩
    rw [remaining_of_pending_none rfl]
    simp [goOn, hrest]
  | case4 cursor executing n body rest' hzero hone =>
    have hrest : r.program.drop (cursor + 2) = rest' := drop_add_of_drop hdrop 2
    rw [expansionFrom_repeat, replicate_of_ne_zero hzero,
      List.cons_append, List.cons.injEq, Prod.mk.injEq] at h
    obtain ⟨⟨rfl, rfl⟩, rfl⟩ := h
    refine ⟨rfl, rfl, ?_, fun p hp => ?_⟩
    · rw [remaining_of_pending_some rfl]
      simp [goOn, hrest]
    · obtain rfl : _ = p := Option.some.inj hp
      have hhead : r.program[cursor]? = some (.repeatNext n) := getElem?_add_of_drop hdrop 0
      have hbody : r.program[cursor + 1]? = some body := getElem?_add_of_drop hdrop 1
      have hleft : n - 1 ≠ 0 := fun h0 => hone (by rw [← UInt8.sub_add_cancel n 1, h0]; rfl)
      have hlt : n - 1 < n := by rw [UInt8.lt_iff_toNat_lt, ← toNat_sub_one hzero]; omega
      exact ⟨n, hhead, hbody, UInt8.pos_iff_ne_zero.mpr hleft, hlt, rfl⟩
  | case5 => simp at h
  | case6 cursor executing action rest' hbody hlast =>
    have hrest : r.program.drop (cursor + 1) = rest' := drop_add_of_drop hdrop 1
    rw [expansionFrom_plain cursor rest' (ne_repeatNext hbody hlast), List.cons.injEq,
      Prod.mk.injEq] at h
    obtain ⟨⟨rfl, rfl⟩, rfl⟩ := h
    refine ⟨rfl, rfl, ?_, coherent_of_pending_none rfl⟩
    rw [remaining_of_pending_none rfl]
    simp [goOn, hrest]

/-- A pending repeat has a copy left. -/
theorem remaining_of_pending {r : GridRun} (hr : r.Coherent) {p : PendingRepeat}
    (hp : r.pending = some p) :
    r.remaining = (r.cursor, p.body) ::
      (List.replicate (p.remaining - 1).toNat (r.cursor, p.body) ++
        expansionFrom (r.cursor + 2) (r.program.drop (r.cursor + 2))) := by
  obtain ⟨n, -, -, hpos, -, -⟩ := hr p hp
  rw [remaining_of_pending_some hp, replicate_of_ne_zero (UInt8.pos_iff_ne_zero.mp hpos),
    List.cons_append]

/-- Without a pending repeat, a fetch looks from the cursor on. -/
theorem fetch_of_pending_none {r : GridRun} (h : r.pending = none) :
    r.fetch = ((fetchFrom r.cursor r.executing (r.program.drop r.cursor)).action,
      r.goOn (fetchFrom r.cursor r.executing (r.program.drop r.cursor))) := by
  rw [fetch, h]
  rfl

/-- **Nothing is fetched where nothing remains**, and nothing is left. -/
theorem fetch_of_remaining_nil {r : GridRun} (hr : r.Coherent) (h : r.remaining = []) :
    ∃ cursor executing, r.fetch = (none, { r with cursor, pending := none, executing }) ∧
      ({ r with cursor, pending := none, executing } : GridRun).remaining = [] := by
  cases hp : r.pending with
  | none =>
    rw [remaining_of_pending_none hp] at h
    obtain ⟨haction, hpending, hrest⟩ := r.fetchFrom_of_expansionFrom_nil r.executing rfl h
    rw [goOn, hpending] at hrest
    exact ⟨_, _, by rw [fetch_of_pending_none hp, goOn, haction, hpending], hrest⟩
  | some p => simp [remaining_of_pending hr hp] at h

/-- **Fetching takes the head of what remains and leaves the tail.** -/
theorem fetch_of_remaining_cons {r : GridRun} (hr : r.Coherent) {i : Nat} {a : Action}
    {rest : List (Nat × Action)} (h : r.remaining = (i, a) :: rest) :
    ∃ cursor pending, r.fetch = (some a, { r with cursor, pending, executing := some i }) ∧
      ({ r with cursor, pending, executing := some i } : GridRun).remaining = rest ∧
      ({ r with cursor, pending, executing := some i } : GridRun).Coherent := by
  cases hp : r.pending with
  | none =>
    rw [remaining_of_pending_none hp] at h
    obtain ⟨haction, hexec, hrest, hcoh⟩ :=
      r.fetchFrom_of_expansionFrom_cons r.executing rfl h
    rw [goOn, hexec] at hrest hcoh
    exact ⟨_, _, by rw [fetch_of_pending_none hp, goOn, haction, hexec], hrest, hcoh⟩
  | some p =>
    obtain ⟨n, hhead, hbody, hpos, hlt, hexec⟩ := hr p hp
    rw [remaining_of_pending hr hp, List.cons.injEq, Prod.mk.injEq] at h
    obtain ⟨⟨rfl, rfl⟩, rfl⟩ := h
    by_cases hleft : p.remaining - 1 = 0
    · refine ⟨r.cursor + 2, none, ?_, ?_, coherent_of_pending_none rfl⟩
      · rw [fetch, hp, ← hexec]
        simp [hleft]
      · rw [remaining_of_pending_none rfl, hleft]
        rfl
    · refine ⟨r.cursor, some { p with remaining := p.remaining - 1 }, ?_, ?_, fun q hq => ?_⟩
      · rw [fetch, hp, ← hexec]
        simp [hleft]
      · rw [remaining_of_pending_some rfl]
      · obtain rfl : _ = q := Option.some.inj hq
        refine ⟨n, hhead, hbody, UInt8.pos_iff_ne_zero.mpr hleft, ?_, rfl⟩
        change p.remaining - 1 < n
        have hstep := toNat_sub_one (UInt8.pos_iff_ne_zero.mp hpos)
        rw [UInt8.lt_iff_toNat_lt] at hlt ⊢
        omega

/-- **A fetch follows what remains**: it takes the first of these actions, notes the block that
asks for it, and leaves the others. -/
structure Follows (r : GridRun) (fetched : Option Action × GridRun) : Prop where
  action_eq : fetched.1 = r.remaining.head?.map Prod.snd
  executing_eq : ∀ head ∈ r.remaining.head?, fetched.2.executing = some head.1
  remaining_eq : fetched.2.remaining = r.remaining.tail
  /-- Nothing else of the run changes. -/
  frame : ∃ cursor pending executing, fetched.2 = { r with cursor, pending, executing }
  coherent : fetched.2.Coherent

/-- Fetching takes the head of what remains and leaves the tail, also where both are nothing. -/
theorem fetch_follows {r : GridRun} (hr : r.Coherent) : r.Follows r.fetch := by
  cases hrem : r.remaining with
  | nil =>
    obtain ⟨cursor, executing, hfetch, hleft⟩ := fetch_of_remaining_nil hr hrem
    rw [hfetch]
    exact
      { action_eq := by rw [hrem]; rfl
        executing_eq := by rw [hrem]; nofun
        remaining_eq := by rw [hrem]; exact hleft
        frame := ⟨cursor, none, executing, rfl⟩
        coherent := coherent_of_pending_none rfl }
  | cons head rest =>
    obtain ⟨cursor, pending, hfetch, hleft, hcoherent⟩ := fetch_of_remaining_cons hr hrem
    rw [hfetch]
    exact
      { action_eq := by rw [hrem]; rfl
        executing_eq := by
          rw [hrem]
          rintro _ ⟨⟩
          rfl
        remaining_eq := by rw [hrem]; exact hleft
        frame := ⟨cursor, pending, some head.1, rfl⟩
        coherent := hcoherent }

/-! ## Looking ahead -/

/-- **Where the look-ahead sees nothing, nothing remains.**  The converse fails: a repeat of no
times is seen and skipped. -/
theorem remaining_of_peek?_none {r : GridRun} (hv : r.verdict = none)
    (h : r.peek? = none) : r.remaining = [] := by
  rw [peek?, hv] at h
  cases hp : r.pending with
  | none =>
    rw [remaining_of_pending_none hp]
    exact expansionFrom_of_peekFrom_none (by simpa [hp] using h)
  | some p => simp [hp] at h

end GridRun

end BlockCoding
