import BlockCoding.Proofs.Run.LookAhead

/-!
# Proofs/Run/Asking — a run executes what its blocks ask for, in the order of the program

Whatever a run takes up next is asked for by a block of its program (`Coherent.asksFor`): the block
itself, or the repeat block in front of it.  So the blocks that are announced say which actions were
executed (`actionsTold`), and `InStep` says of a run that these and the actions that remain are what
its program comes to.  Every step keeps in step (`InStep.stepped`); a run that ends incomplete has
executed all of them, and was not won after any.
-/

namespace BlockCoding

/-! ## Occurrences -/

/-- Whether an event tells of something that occurs in the world of a run: neither of a block of its
program, nor of its verdict. -/
def Event.isOccurrence : Event → Bool
  | .executing _ | .celebrating | .finished _ => false
  | _ => true

section Action

variable {rules : Rules} {world world' : Grid} {ctx ctx' : Context} {raised : List Event}

/-- Pickups occur. -/
private theorem Gathered.occurs {occasion : Pickup}
    (h : Gathered rules occasion world ctx world' ctx' raised) :
    raised.all Event.isOccurrence = true := by
  refine List.all_eq_true.mpr fun event hmem => ?_
  have hcollected := h.isCollected_of_mem hmem
  cases event <;> first | rfl | cases hcollected

/-- **An action tells only of what occurs.** -/
theorem Effect.occurs {action : Action}
    (h : Effect rules world ctx action (.performed world' ctx' raised)) :
    raised.all Event.isOccurrence = true := by
  cases h with
  | moved move there free pick => exact pick.occurs
  | collected pick => exact pick.occurs
  | turned | opened | sensed | scanned | inert => rfl

end Action

/-! ## Who asks for an action -/

/-- **The block at `index` asks for an action**: the action is its own, or the block is a repeat
block and the action is that of the block after it. -/
inductive AsksFor (program : List Action) (index : Nat) (action : Action) : Prop where
  | own (there : program[index]? = some action) (plain : ∀ n, action ≠ .repeatNext n)
  | body {n : UInt8} (there : program[index]? = some (.repeatNext n))
      (next : program[index + 1]? = some action)

/-- The block that asks is one of the program. -/
theorem AsksFor.lt {program : List Action} {index : Nat} {action : Action}
    (h : AsksFor program index action) : index < program.length := by
  cases h with
  | own there | body there => exact (List.getElem?_eq_some_iff.mp there).1

/-- Whatever the rest of a program comes to is asked for by the block it names. -/
theorem asksFor_of_mem {program rest : List Action} {cursor index : Nat} {action : Action}
    (hrest : program.drop cursor = rest) (h : (index, action) ∈ expansionFrom cursor rest) :
    AsksFor program index action := by
  fun_induction expansionFrom cursor rest with
  | case1 => exact absurd h List.not_mem_nil
  | case2 cursor n body rest ih =>
    rcases List.mem_append.mp h with h | h
    · obtain ⟨-, heq⟩ := List.mem_replicate.mp h
      obtain ⟨rfl, rfl⟩ := Prod.mk.inj heq
      exact .body (getElem?_add_of_drop hrest 0) (getElem?_add_of_drop hrest 1)
    · exact ih (drop_add_of_drop hrest 2) h
  | case3 => exact absurd h List.not_mem_nil
  | case4 cursor head rest hbody hlast ih =>
    rcases List.mem_cons.mp h with h | h
    · obtain ⟨rfl, rfl⟩ := Prod.mk.inj h
      exact .own (getElem?_add_of_drop hrest 0) (ne_repeatNext hbody hlast)
    · exact ih (drop_add_of_drop hrest 1) h

namespace GridRun

variable {r r' : GridRun} {events : List Event} {index : Nat} {action : Action}

/-- **Whatever remains of a run is asked for by a block of its program.** -/
theorem Coherent.asksFor (hr : r.Coherent) (h : (index, action) ∈ r.remaining) :
    AsksFor r.program index action := by
  cases hp : r.pending with
  | none =>
    rw [remaining_of_pending_none hp] at h
    exact asksFor_of_mem rfl h
  | some p =>
    rw [remaining_of_pending_some hp] at h
    rcases List.mem_append.mp h with h | h
    · obtain ⟨n, hhead, hbody, -⟩ := hr p hp
      obtain ⟨-, heq⟩ := List.mem_replicate.mp h
      obtain ⟨rfl, rfl⟩ := Prod.mk.inj heq
      exact .body hhead hbody
    · exact asksFor_of_mem rfl h

/-- The block that a step announces is the one that asks for what it executes. -/
theorem Stepped.asksFor (hr : r.Sound) (hv : r.verdict = none) (hs : r.Stepped events r')
    (h : .executing index ∈ events) :
    ∃ action, r.Executes action events r' ∧ AsksFor r.program index action := by
  have hcoherent := hr.coherent hv
  have hfound : ∀ {i action rest}, r.remaining = (i, action) :: rest →
      r.Executes action events r' ∧ AsksFor r.program i action := by
    intro i action rest next
    refine ⟨hs.executes hcoherent hv ?_, hcoherent.asksFor ?_⟩
    · rw [next?_eq_head? hcoherent, next]
      rfl
    · rw [next]
      exact List.mem_cons_self
  have hnone : ∀ {action world context raised},
      r.rules.perform r.world r.context action = .ok (.performed world context raised) →
        .executing index ∉ raised := by
    intro action world context raised done hmem
    have heffect := r.rules.effect_of_perform hr.tiled r.context done
    cases List.all_eq_true.mp heffect.occurs _ hmem
  cases hs with
  | exhausted => simp at h
  | rejected cursor pending next =>
    obtain rfl : index = _ := by simpa using h
    exact ⟨_, hfound next⟩
  | ended next done =>
    obtain rfl : index = _ := by simpa [hnone done] using h
    exact ⟨_, hfound next⟩
  | continued next done =>
    obtain rfl : index = _ := by simpa [hnone done] using h
    exact ⟨_, hfound next⟩

/-- No step changes the program. -/
theorem Stepped.program_eq (hs : r.Stepped events r') : r'.program = r.program := by
  cases hs with
  | exhausted | rejected | ended | continued => rfl

end GridRun

/-! ## The actions that events tell -/

/-- **The action that the block at `index` asks for**: its own, or that of the block after it if it
is a repeat block. -/
def askedBy (program : List Action) (index : Nat) : Option Action :=
  match program[index]? with
  | some (.repeatNext _) => program[index + 1]?
  | found => found

theorem AsksFor.askedBy_eq {program : List Action} {index : Nat} {action : Action}
    (h : AsksFor program index action) : askedBy program index = some action := by
  cases h with
  | own there plain =>
    rw [askedBy, there]
    cases action with
    | repeatNext n => exact absurd rfl (plain n)
    | _ => rfl
  | body there next => rw [askedBy, there, next]

/-- The block that an event tells to be executed, with the action it asks for. -/
def Event.action? (program : List Action) : Event → Option (Nat × Action)
  | .executing index => (askedBy program index).map (index, ·)
  | _ => none

/-- **The actions that events tell to be executed**, in order, each with the position of its
block. -/
def actionsTold (program : List Action) (events : List Event) : List (Nat × Action) :=
  events.filterMap (Event.action? program)

section Told

variable {program : List Action} {told : List Event}

theorem actionsTold_append (events : List Event) :
    actionsTold program (told ++ events) = actionsTold program told ++ actionsTold program events :=
  List.filterMap_append

/-- The announcement of a verdict tells of no action. -/
theorem actionsTold_concat_finished (verdict : Verdict) :
    actionsTold program (told ++ [.finished verdict]) = actionsTold program told := by
  rw [actionsTold_append]
  exact List.append_nil _

/-- **A block that is announced tells of the action it asks for**, and what comes of that action
tells of no other. -/
theorem Effect.actionsTold_eq {rules : Rules} {world world' : Grid} {ctx ctx' : Context}
    {raised : List Event} {index : Nat} {action : Action}
    (h : Effect rules world ctx action (.performed world' ctx' raised))
    (hasks : AsksFor program index action) :
    actionsTold program (.executing index :: raised) = [(index, action)] := by
  have hraised : raised.filterMap (Event.action? program) = [] := by
    refine List.filterMap_eq_nil_iff.mpr fun event hmem => ?_
    have hoccurs := List.all_eq_true.mp h.occurs event hmem
    cases event <;> first | rfl | cases hoccurs
  have hfirst : Event.action? program (.executing index) = some (index, action) := by
    rw [Event.action?, hasks.askedBy_eq, Option.map_some]
  rw [actionsTold, List.filterMap_cons_some hfirst, hraised]

end Told

/-! ## In step with the program -/

namespace GridRun

/-- **Nothing has settled the run**: it goes on, or it ended with the end of its program. -/
def Unsettled (r : GridRun) : Prop := r.verdict = none ∨ r.verdict = some (.fail .incomplete)

/-- **A run in step with its program**: as long as nothing has settled it, what it has told to be
executed has all taken effect and has not won, and the rest of the program remains. -/
structure InStep (rules : Rules) (program : List Action) (told : List Event) (r : GridRun) :
    Prop where
  rules_eq : r.rules = rules
  program_eq : r.program = program
  told_append : r.verdict = none → actionsTold program told ++ r.remaining = expansion program
  told_all : r.verdict = some (.fail .incomplete) → actionsTold program told = expansion program
  length_trace : r.Unsettled → r.trace.length = (actionsTold program told).length + 1
  unwon : r.Unsettled → actionsTold program told ≠ [] →
    rules.win.holds r.world r.context = .ok false

namespace InStep

variable {rules : Rules} {program : List Action} {told events : List Event} {r r' : GridRun}

theorem start (g : Grid) (rules : Rules) (program : List Action) :
    InStep rules program [] (start g rules program) where
  rules_eq := rfl
  program_eq := rfl
  told_append _ := rfl
  told_all h := nomatch h
  length_trace _ := rfl
  unwon _ h := absurd rfl h

/-- A run that is settled has nothing more to keep in step with. -/
theorem settle (h : InStep rules program told r) {told' : List Event} {cursor : Nat}
    {executing : Option Nat} {pending : Option PendingRepeat} {world : Grid} {context : Context}
    {trace : List Cell} {verdict : Verdict} (hne : verdict ≠ .fail .incomplete) :
    InStep rules program told' { r with
      cursor, executing, pending, world, context, trace
      verdict := some verdict } where
  rules_eq := h.rules_eq
  program_eq := h.program_eq
  told_append hnone := nomatch hnone
  told_all hend := absurd (Option.some.inj hend) hne
  length_trace hopen := absurd (Option.some.inj (hopen.resolve_left nofun)) hne
  unwon hopen := absurd (Option.some.inj (hopen.resolve_left nofun)) hne

/-- A run whose program is over has executed all of it. -/
theorem exhaust (h : InStep rules program told r) (hv : r.verdict = none)
    (hempty : r.remaining = []) (cursor : Nat) (executing : Option Nat)
    (pending : Option PendingRepeat) :
    InStep rules program (told ++ [.finished (.fail .incomplete)]) { r with
      cursor, executing, pending
      verdict := some (.fail .incomplete) } where
  rules_eq := h.rules_eq
  program_eq := h.program_eq
  told_append hnone := nomatch hnone
  told_all _ := by
    rw [actionsTold_concat_finished, ← h.told_append hv, hempty, List.append_nil]
  length_trace _ := by
    rw [actionsTold_concat_finished]
    exact h.length_trace (.inl hv)
  unwon _ := by
    rw [actionsTold_concat_finished]
    exact h.unwon (.inl hv)

/-- What a run takes up next is asked for by a block of the program it is in step with. -/
theorem asksFor (h : InStep rules program told r) (hr : r.Sound) (hv : r.verdict = none)
    {index : Nat} {action : Action} {rest : List (Nat × Action)}
    (next : r.remaining = (index, action) :: rest) : AsksFor program index action := by
  rw [← h.program_eq]
  refine (hr.coherent hv).asksFor ?_
  rw [next]
  exact List.mem_cons_self

/-- **An action that does not win leaves the run in step.** -/
theorem act (h : InStep rules program told r) (hr : r.Sound) (hv : r.verdict = none)
    {index cursor : Nat} {action : Action} {rest : List (Nat × Action)}
    {pending : Option PendingRepeat} {world : Grid} {context : Context} {raised : List Event}
    (next : r.remaining = (index, action) :: rest)
    (done : r.rules.perform r.world r.context action = .ok (.performed world context raised))
    (left : (r.resume index cursor pending world context).remaining = rest)
    (unwon : rules.win.holds world context = .ok false) :
    InStep rules program (told ++ .executing index :: raised)
      (r.resume index cursor pending world context) := by
  have heffect := r.rules.effect_of_perform hr.tiled r.context done
  have htold : actionsTold program (told ++ .executing index :: raised)
      = actionsTold program told ++ [(index, action)] := by
    rw [actionsTold_append, heffect.actionsTold_eq (h.asksFor hr hv next)]
  refine ⟨h.rules_eq, h.program_eq, fun _ => ?_, fun hend => ?_, fun _ => ?_,
    fun _ _ => unwon⟩
  · rw [htold, left, List.append_assoc, List.singleton_append, ← next, h.told_append hv]
  · rw [resume, hv] at hend
    cases hend
  · rw [resume, htold, List.length_append, List.length_append, h.length_trace (.inl hv)]
    rfl

/-- **Every step of a run in step keeps it so.** -/
theorem stepped (h : InStep rules program told r) (hr : r.Sound) (hv : r.verdict = none)
    (hs : r.Stepped events r') : InStep rules program (told ++ events) r' := by
  cases hs with
  | exhausted cursor executing empty => exact h.exhaust hv empty cursor executing none
  | rejected cursor pending next refused =>
    have hcause := (r.rules.effect_of_perform hr.tiled r.context refused).cause_ne_incomplete
    exact h.settle fun heq => hcause (Verdict.fail.inj heq)
  | @ended index cursor action rest pending world context raised verdict next done left due =>
    rcases resume_verdictDue_some hr.tiled hv done due with
      ⟨rfl, -⟩ | ⟨unwon, ⟨rfl, -⟩ | ⟨rfl, -, hempty⟩⟩
    · exact h.settle nofun
    · exact h.settle nofun
    · rw [← List.append_assoc]
      have hacted := h.act hr hv next done left (by rw [← h.rules_eq]; exact unwon)
      exact hacted.exhaust hv hempty cursor (some index) pending
  | @continued index cursor action rest pending world context raised next done left coherent
      due =>
    refine h.act hr hv next done left ?_
    rw [← h.rules_eq]
    exact (resume_verdictDue_none hr.tiled done due).1

end InStep

end GridRun

end BlockCoding
