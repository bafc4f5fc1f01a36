import BlockCoding.Program
import BlockCoding.Proofs.Fault
import Mathlib.Data.List.Induction
import Mathlib.Data.List.Nodup

/-!
# Proofs/Program/Identity — placed blocks keep their ids and their order

An `Edit` of a program has an `Outcome`, which its answer tells: a block is placed or taken out,
every block is taken out, the edit is refused.  `Happens` says what an outcome means for the
program.  The outcomes of a sequence of edits tell which blocks are `left`: those that were placed
and not taken out since.  Every edit keeps a program in step with that (`Tracks.happens`), so it is
in step after any sequence of edits (`tracks_history`), and ids are counted up from one.  For as
long as they fit into their word the edits go well (`history?_eq_ok`).
-/

namespace BlockCoding.Program

/-! ## Edits and their outcomes -/

/-- What may happen to a program. -/
inductive Edit where
  | append (block : Block)
  | removeAt (i : Nat)
  | clear
  | setFrozen (frozen : Bool)
  deriving Repr

/-- What becomes of an edit. -/
inductive Outcome where
  | placed (block : PlacedBlock)
  | taken (block : PlacedBlock)
  /-- Every block is taken out. -/
  | swept
  | refused
  | switched (frozen : Bool)
  deriving DecidableEq, Repr

/-- Lets one edit happen. -/
def perform (p : Program) : Edit → Program
  | .append block => (p.append block).2
  | .removeAt i => (p.removeAt i).2
  | .clear => p.clear
  | .setFrozen frozen => p.setFrozen frozen

/-- Lets one edit happen; a block after which there is no id left is a fault. -/
def perform? (p : Program) : Edit → Except Fault Program
  | .append block => return (← p.append? block).2
  | edit => pure (p.perform edit)

/-- What becomes of an edit, by the answer to it. -/
def outcome (p : Program) : Edit → Outcome
  | .append block =>
    match (p.append block).1 with
    | some id => .placed ⟨id, block⟩
    | none => .refused
  | .removeAt i =>
    match (p.removeAt i).1 with
    | some block => .taken block
    | none => .refused
  | .clear => if p.frozen then .refused else .swept
  | .setFrozen frozen => .switched frozen

/-- **Lets a sequence of edits happen.** -/
def history (p : Program) (edits : List Edit) : Program := edits.foldl perform p

/-- Lets a sequence of edits happen, as long as there are ids. -/
def history? (p : Program) (edits : List Edit) : Except Fault Program := edits.foldlM perform? p

/-- What becomes of each edit of a sequence. -/
def outcomes (p : Program) : List Edit → List Outcome
  | [] => []
  | edit :: edits => p.outcome edit :: (p.perform edit).outcomes edits

theorem history_concat (p : Program) (edits : List Edit) (edit : Edit) :
    p.history (edits ++ [edit]) = (p.history edits).perform edit := List.foldl_concat ..

theorem outcomes_concat (p : Program) (edits : List Edit) (edit : Edit) :
    p.outcomes (edits ++ [edit]) = p.outcomes edits ++ [(p.history edits).outcome edit] := by
  induction edits generalizing p with
  | nil => rfl
  | cons first edits ih => exact congrArg (p.outcome first :: ·) (ih (p.perform first))

/-! ## What an outcome means -/

/-- **What an outcome means for a program.** -/
inductive Happens (p : Program) : Outcome → Program → Prop where
  | placed (block : Block) : Happens p (.placed ⟨p.nextId, block⟩)
      { p with blocks := p.blocks ++ [⟨p.nextId, block⟩], nextId := p.nextId + 1 }
  | taken {i : Nat} (h : i < p.blocks.length) : Happens p (.taken p.blocks[i])
      { p with blocks := p.blocks.eraseIdx i }
  | swept : Happens p .swept { p with blocks := [] }
  | refused : Happens p .refused p
  | switched (frozen : Bool) : Happens p (.switched frozen) { p with frozen }

/-- **Every edit does what its outcome means.** -/
theorem happens_perform (p : Program) (edit : Edit) :
    p.Happens (p.outcome edit) (p.perform edit) := by
  by_cases hfrozen : p.frozen = true
  · cases edit with
    | append block =>
      rw [outcome, perform, append, if_pos hfrozen]
      exact .refused
    | removeAt i =>
      rw [outcome, perform, removeAt, if_pos hfrozen]
      exact .refused
    | clear =>
      rw [outcome, perform, clear, if_pos hfrozen, if_pos hfrozen]
      exact .refused
    | setFrozen frozen => exact .switched frozen
  · cases edit with
    | append block =>
      rw [outcome, perform, append, if_neg hfrozen]
      exact .placed block
    | removeAt i =>
      rw [outcome, perform, removeAt, if_neg hfrozen]
      by_cases hi : i < p.blocks.length
      · rw [List.getElem?_eq_getElem hi]
        exact .taken hi
      · rw [List.getElem?_eq_none (Nat.le_of_not_lt hi)]
        exact .refused
    | clear =>
      rw [outcome, perform, clear, if_neg hfrozen, if_neg hfrozen]
      exact .swept
    | setFrozen frozen => exact .switched frozen

/-- **An edit that is refused changes nothing.** -/
theorem perform_of_refused {p : Program} {edit : Edit} (h : p.outcome edit = .refused) :
    p.perform edit = p := by
  have hhappens := happens_perform p edit
  rw [h] at hhappens
  generalize p.perform edit = p' at hhappens
  cases hhappens
  rfl

/-- **An edit is refused if the program is frozen**, and a removal where there is no block. -/
theorem outcome_eq_refused_iff (p : Program) (edit : Edit) :
    p.outcome edit = .refused ↔
      (p.frozen = true ∧ ∀ frozen, edit ≠ .setFrozen frozen) ∨
        ∃ i, edit = .removeAt i ∧ p.size ≤ i := by
  cases edit with
  | append block => cases h : p.frozen <;> simp [outcome, append, h]
  | removeAt i =>
    by_cases hi : i < p.blocks.length <;> cases h : p.frozen <;>
      simp [outcome, removeAt, size, h, hi]
    omega
  | clear => cases h : p.frozen <;> simp [outcome, h]
  | setFrozen => simp [outcome]

/-- **A removal answers with the block at its position** and takes out no other. -/
theorem removeAt_eq {p : Program} (hopen : p.frozen = false) {before after : List PlacedBlock}
    {block : PlacedBlock} (h : p.blocks = before ++ block :: after) :
    p.removeAt before.length = (some block, { p with blocks := before ++ after }) := by
  simp [removeAt, hopen, h, List.eraseIdx_append_of_length_le]

/-! ## What is left -/

namespace Outcome

/-- The block that was placed. -/
def placed? : Outcome → Option PlacedBlock
  | placed block => some block
  | _ => none

/-- Whether a block is among those taken out. -/
def takes (block : PlacedBlock) : Outcome → Bool
  | taken block' => block' == block
  | swept => true
  | _ => false

end Outcome

/-- Every block ever placed, in order. -/
def placements (os : List Outcome) : List PlacedBlock := os.filterMap Outcome.placed?

/-- **The blocks that were placed and not taken out since**, in the order in which they were
placed. -/
def left : List Outcome → List PlacedBlock
  | [] => []
  | .placed block :: os => if os.any (·.takes block) then left os else block :: left os
  | _ :: os => left os

theorem left_sublist_placements (os : List Outcome) : (left os).Sublist (placements os) := by
  induction os with
  | nil => exact .slnil
  | cons o os ih =>
    cases o with
    | placed block =>
      rw [left]
      split
      · exact ih.cons block
      · exact ih.cons_cons block
    | taken | swept | refused | switched => exact ih

/-- One more outcome leaves what it does not take out, and what it places. -/
theorem left_concat (os : List Outcome) (o : Outcome) :
    left (os ++ [o]) = (left os).filter (fun block => !o.takes block) ++ o.placed?.toList := by
  induction os with
  | nil => cases o <;> rfl
  | cons first os ih =>
    cases first with
    | placed block =>
      rw [List.cons_append, left, left, ih, List.any_append]
      cases os.any (·.takes block) <;> cases h : o.takes block <;> simp [h]
    | taken | swept | refused | switched => exact ih

theorem placements_concat (os : List Outcome) (o : Outcome) :
    placements (os ++ [o]) = placements os ++ o.placed?.toList := by
  rw [placements, List.filterMap_append]
  cases o <;> rfl

/-! ## A program in step with what is left -/

/-- **A program in step with the outcomes so far**: its blocks are those that are left, and the ids
of all blocks ever placed are counted up from one to the next id. -/
structure Tracks (p : Program) (os : List Outcome) : Prop where
  blocks : p.blocks = left os
  ids : (placements os).map (·.id) = List.range' 1 (placements os).length
  nextId : p.nextId = (placements os).length + 1

namespace Tracks

variable {p p' : Program} {os : List Outcome} {o : Outcome}

/-- Ids are handed out in ascending order, so no id is handed out twice. -/
theorem pairwise_ids (h : p.Tracks os) : ((placements os).map (·.id)).Pairwise (· < ·) := by
  rw [h.ids]
  exact List.pairwise_lt_range'

theorem nodup_blocks (h : p.Tracks os) : p.blocks.Nodup := by
  have hplaced : (placements os).Nodup :=
    ((List.pairwise_map.mp h.pairwise_ids).imp fun hlt heq => by
      rw [heq] at hlt
      exact Nat.lt_irrefl _ hlt)
  rw [h.blocks]
  exact hplaced.sublist (left_sublist_placements os)

/-- A program stays in step where no block is placed, and those left are the ones not taken out. -/
theorem of_unplaced (h : p.Tracks os) (ho : o.placed? = none) (hnext : p'.nextId = p.nextId)
    (hblocks : p'.blocks = p.blocks.filter fun block => !o.takes block) :
    p'.Tracks (os ++ [o]) := by
  have hplacements : placements (os ++ [o]) = placements os := by
    rw [placements_concat, ho, Option.toList_none, List.append_nil]
  refine ⟨?_, ?_, ?_⟩
  · rw [left_concat, ho, Option.toList_none, List.append_nil, hblocks, h.blocks]
  · rw [hplacements, h.ids]
  · rw [hplacements, hnext, h.nextId]

/-- It stays in step when the next block is placed. -/
theorem place (h : p.Tracks os) (block : Block) :
    Tracks { p with blocks := p.blocks ++ [⟨p.nextId, block⟩], nextId := p.nextId + 1 }
      (os ++ [.placed ⟨p.nextId, block⟩]) := by
  have hplacements : placements (os ++ [.placed ⟨p.nextId, block⟩])
      = placements os ++ [⟨p.nextId, block⟩] := placements_concat ..
  refine ⟨?_, ?_, ?_⟩
  · rw [left_concat, h.blocks]
    simp [Outcome.takes, Outcome.placed?]
  · rw [hplacements, List.map_append, h.ids, List.length_append, List.length_singleton,
      List.range'_1_concat, List.map_singleton, h.nextId, Nat.add_comm 1]
  · rw [hplacements, List.length_append, List.length_singleton, h.nextId]

/-- **What happens keeps a program in step.** -/
theorem happens (h : p.Tracks os) (hp : p.Happens o p') : p'.Tracks (os ++ [o]) := by
  cases hp with
  | placed block => exact h.place block
  | @taken i hi =>
    refine h.of_unplaced rfl rfl ?_
    rw [← h.nodup_blocks.erase_getElem i hi, h.nodup_blocks.erase_eq_filter]
    exact List.filter_congr fun block _ => by rw [Outcome.takes, bne, BEq.comm]
  | swept => exact h.of_unplaced rfl rfl (by simp [Outcome.takes])
  | refused => exact h.of_unplaced rfl rfl (by simp [Outcome.takes])
  | switched => exact h.of_unplaced rfl rfl (by simp [Outcome.takes])

end Tracks

/-- **After any sequence of edits a program is in step.**  The induction is on the edits, from the
last. -/
theorem tracks_history (edits : List Edit) :
    (empty.history edits).Tracks (empty.outcomes edits) := by
  induction edits using List.reverseRecOn with
  | nil => exact ⟨rfl, rfl, rfl⟩
  | append_singleton edits edit ih =>
    rw [outcomes_concat, history_concat]
    exact ih.happens (happens_perform _ edit)

/-! ## As long as there are ids -/

/-- An edit goes well if there is an id for the next block after it. -/
theorem perform?_eq_ok {p : Program} {edit : Edit} (h : (p.perform edit).fits = true) :
    p.perform? edit = .ok (p.perform edit) := by
  cases edit with
  | append block =>
    have happend : p.append? block = .ok (p.append block) := fitting_eq_ok_iff.mpr ⟨rfl, h⟩
    rw [perform?, happend]
    rfl
  | removeAt | clear | setFrozen => rfl

/-- **Edits go well as long as there is an id for every block.** -/
theorem history?_eq_ok (edits : List Edit)
    (few : (placements (empty.outcomes edits)).length < UInt32.size - 1) :
    empty.history? edits = .ok (empty.history edits) := by
  induction edits using List.reverseRecOn with
  | nil => rfl
  | append_singleton edits edit ih =>
    have hfits : ((empty.history edits).perform edit).fits = true := by
      rw [fits, decide_eq_true_iff, ← history_concat, (tracks_history _).nextId]
      omega
    rw [outcomes_concat, placements_concat, List.length_append] at few
    rw [history?, List.foldlM_append, ← history?, ih (by omega), ok_bind, List.foldlM_cons,
      perform?_eq_ok hfits, history_concat]
    rfl

/-- **Blocks keep their ids and their order.**  After any sequence of edits with fewer than
`UInt32.size - 1` placements, ids ascend along the program and no id was ever handed out twice; the
program holds the blocks that were placed and not taken out since, in the order in which they were
placed; a removal takes out the block at its position and no other; and an edit that is refused,
as every edit of a frozen program is, changes nothing.  So many ids fit into their word. -/
theorem identity_kept (edits : List Edit)
    (few : (placements (empty.outcomes edits)).length < UInt32.size - 1) :
    let p := empty.history edits
    let os := empty.outcomes edits
    empty.history? edits = .ok p ∧
    (p.blocks.map (·.id)).Pairwise (· < ·) ∧
    ((placements os).map (·.id)).Pairwise (· < ·) ∧
    p.blocks = left os ∧
    (∀ before block after, p.frozen = false → p.blocks = before ++ block :: after →
      p.removeAt before.length = (some block, { p with blocks := before ++ after })) ∧
    (∀ edit, p.outcome edit = .refused → p.perform edit = p) ∧
    ∀ edit, p.outcome edit = .refused ↔
      (p.frozen = true ∧ ∀ frozen, edit ≠ .setFrozen frozen) ∨
        ∃ i, edit = .removeAt i ∧ p.size ≤ i := by
  intro p os
  have htracks := tracks_history edits
  refine ⟨history?_eq_ok edits few, ?_, htracks.pairwise_ids, htracks.blocks,
    fun _ _ _ hopen h => removeAt_eq hopen h, fun _ => perform_of_refused, outcome_eq_refused_iff p⟩
  rw [htracks.blocks]
  exact htracks.pairwise_ids.sublist ((left_sublist_placements _).map _)

/-- Three blocks are placed, the second is taken out, the program is swept while frozen and once
more when it is not, and a last block is placed: it has id 4, and nothing else is left. -/
theorem identity_kept_swept :
    ∃ move : Block, Block.find? "b1" = some move ∧
      let edits : List Edit := [.append move, .append move, .append move, .removeAt 1,
        .setFrozen true, .clear, .setFrozen false, .clear, .append move]
      (placements (empty.outcomes edits)).length < UInt32.size - 1 ∧
      (empty.history edits).blocks = left (empty.outcomes edits) ∧
      left (empty.outcomes edits) = [⟨4, move⟩] := by
  refine ⟨_, rfl, by decide, ?_, by decide⟩
  exact (identity_kept _ (by decide)).2.2.2.1

end BlockCoding.Program
