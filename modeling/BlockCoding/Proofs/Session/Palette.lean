import BlockCoding.Proofs.Session.Lifecycle

/-!
# Proofs/Session/Palette — what gets into a program

Whether a block is taken is decided by what it does: it need not be in the toolbox of the variant if
one there does the same.  Such twins there are in the ruins and for the miner, whose toolboxes share
three actions, and for no other variant (`supports_iff`).  A program has nothing in it but blocks of
the toolbox and their twins, whatever has happened to the session, and a change of variant leaves
none of the old blocks behind (`program_offered`); but a twin does get in (`program_offered_twin`).
-/

namespace BlockCoding

/-! ## Twins -/

/-- The catalog ids that are not in the toolbox of a variant, but do what a block there does. -/
def Variant.twinIds : Variant → List String
  | .ruins => ["sb1", "sb2", "sb4"]
  | .miner => ["l1", "l3", "l5"]
  | .maze _ | .flight | .orchard => []

/-- **A variant supports what the blocks of its toolbox and their twins do**, and nothing else. -/
theorem Variant.supports_iff (v : Variant) : ∀ block ∈ Block.catalog,
    (v.supports block.action = true ↔ block.id ∈ v.paletteIds ∨ block.id ∈ v.twinIds) := by
  cases v with
  | maze levelId =>
    -- the palette is that of any level
    change ∀ block ∈ Block.catalog, ((maze "lvl1").supports block.action = true ↔
      block.id ∈ (maze "lvl1").paletteIds ∨ block.id ∈ (maze "lvl1").twinIds)
    decide +kernel
  | ruins | miner | flight | orchard => decide +kernel

/-- What is looked up is in the catalog, under the id that was asked for. -/
theorem Block.mem_of_find? {id : String} {block : Block} (h : find? id = some block) :
    block ∈ catalog ∧ block.id = id :=
  ⟨List.mem_of_find?_eq_some h, by simpa using List.find?_some h⟩

/-- Every id of a toolbox or of a twin is in the catalog. -/
theorem Variant.isSome_find? (v : Variant) :
    ∀ id ∈ v.paletteIds ++ v.twinIds, (Block.find? id).isSome = true := by
  cases v with
  | maze levelId =>
    change ∀ id ∈ (maze "lvl1").paletteIds ++ (maze "lvl1").twinIds, _
    decide +kernel
  | ruins | miner | flight | orchard => decide +kernel

/-! ## Blocks that a program may have -/

namespace Program

/-- Placing a block adds no other. -/
theorem mem_append {p : Program} {block : Block} {placed : PlacedBlock}
    (h : placed ∈ (p.append block).2.blocks) : placed ∈ p.blocks ∨ placed.block = block := by
  rw [append] at h
  split at h
  · exact .inl h
  · rcases List.mem_append.mp h with h | h
    · exact .inl h
    · exact .inr (congrArg PlacedBlock.block (List.mem_singleton.mp h))

theorem blocks_removeAt_subset (p : Program) (i : Nat) :
    (p.removeAt i).2.blocks ⊆ p.blocks := by
  rw [removeAt]
  split
  · exact List.Subset.refl _
  · split
    · exact List.Subset.refl _
    · exact List.eraseIdx_subset

theorem blocks_clear_subset (p : Program) : p.clear.blocks ⊆ p.blocks := by
  rw [clear]
  split
  · exact List.Subset.refl _
  · exact List.nil_subset _

end Program

/-- **A block that a variant takes**: it is in the catalog, and in the toolbox or a twin of a block
there. -/
structure Variant.Takes (v : Variant) (block : Block) : Prop where
  known : Block.find? block.id = some block
  offered : block.id ∈ v.paletteIds ∨ block.id ∈ v.twinIds

namespace Session

/-- **Every block of the program is one that the variant takes.** -/
def Offered (s : Session) : Prop := ∀ placed ∈ s.program.blocks, s.variant.Takes placed.block

variable {s s' : Session}

/-- **An unfrozen program takes the blocks of the toolbox and their twins**, and no other. -/
theorem isSome_append_iff (hopen : s.program.frozen = false) (id : String) :
    (s.append id).1.isSome = true ↔ id ∈ s.variant.paletteIds ∨ id ∈ s.variant.twinIds := by
  cases hfound : Block.find? id with
  | none =>
    have hunknown : s.append id = (none, s) := by rw [append, hfound]
    rw [hunknown]
    refine iff_of_false Bool.false_ne_true fun hids => ?_
    have hknown := s.variant.isSome_find? id (List.mem_append.mpr hids)
    rw [hfound] at hknown
    cases hknown
  | some block =>
    obtain ⟨hmem, rfl⟩ := Block.mem_of_find? hfound
    rw [← s.variant.supports_iff block hmem]
    cases hsupported : s.variant.supports block.action with
    | false =>
      have hrefused : s.append block.id = (none, s) := by
        simp only [append, hfound, hsupported, Bool.false_eq_true, if_false]
      rw [hrefused]
      exact iff_of_false Bool.false_ne_true Bool.false_ne_true
    | true =>
      have hplaced : (s.append block.id).1 = some s.program.nextId := by
        simp only [append, hfound, hsupported, if_true, Program.append, hopen, Bool.false_eq_true,
          if_false]
      rw [hplaced]
      exact iff_of_true rfl rfl

namespace Offered

/-- It stays so where no block is placed. -/
theorem of_subset (h : s.Offered) {program : Program}
    (hblocks : program.blocks ⊆ s.program.blocks) : Offered { s with program } :=
  fun placed hmem => h placed (hblocks hmem)

/-- A block that is placed is one that the variant takes. -/
theorem append (h : s.Offered) (id : String) : (s.append id).2.Offered := by
  rw [Session.append]
  split
  · exact h
  · next block hfound =>
    split
    · next hsupported =>
      obtain ⟨hmem, rfl⟩ := Block.mem_of_find? hfound
      intro placed hplaced
      rcases Program.mem_append hplaced with hplaced | rfl
      · exact h placed hplaced
      · exact ⟨hfound, (s.variant.supports_iff _ hmem).mp hsupported⟩
    · exact h

theorem run (h : s.Offered) : s.run.2.Offered := by
  rw [Session.run]
  split
  · exact h
  · exact h

/-- A load leaves no block behind. -/
theorem blocks_of_load {variant : Variant} (hload : s.load variant = .ok s') :
    s'.variant = variant ∧ s'.program.blocks = [] := by
  obtain ⟨⟨template, source⟩, -, hload⟩ := bind_eq_ok.mp hload
  obtain rfl := Except.ok.inj hload
  refine ⟨rfl, ?_⟩
  obtain ⟨_, _, -, heq⟩ := exists_reset { s with play := { s.play with source } }
  dsimp only
  rw [heq]
  rfl

/-- **Every operation keeps to what the variant takes.** -/
theorem of_perform (h : s.Offered) {operation : Operation}
    (hs : s.perform operation = .ok s') : s'.Offered := by
  cases operation with
  | append id =>
    obtain rfl := Except.ok.inj hs
    exact h.append id
  | removeAt i =>
    obtain rfl := Except.ok.inj hs
    exact h.of_subset (s.program.blocks_removeAt_subset i)
  | clearProgram =>
    obtain rfl := Except.ok.inj hs
    exact h.of_subset s.program.blocks_clear_subset
  | run =>
    obtain rfl := Except.ok.inj hs
    exact h.run
  | drainEvents =>
    obtain rfl := Except.ok.inj hs
    exact h
  | update dt =>
    obtain ⟨_, -, hs⟩ := bind_eq_ok.mp hs
    obtain rfl := Except.ok.inj hs
    exact h
  | reset =>
    obtain rfl := Except.ok.inj hs
    obtain ⟨_, _, -, heq⟩ := s.exists_reset
    rw [heq]
    exact h
  | load variant =>
    obtain ⟨loaded, hload, -⟩ := s.exists_load variant
    rw [perform, hload] at hs
    obtain rfl := Except.ok.inj hs
    intro placed hmem
    rw [(blocks_of_load hload).2] at hmem
    exact absurd hmem List.not_mem_nil

end Offered

/-- **A program has nothing in it that its variant does not take.**  Whatever the variant, the
settings and the operations, every block of the program is the one in the catalog under its id, the
variant supports what it does, and it is in the toolbox of the variant or a twin of a block there.
Mazes, the flight and the orchard have no twins, so there every block is in the toolbox.  An idle
session takes the blocks of the toolbox and their twins, and no other; and a load that comes next
leaves no block behind. -/
theorem program_offered (variant : Variant) (settings : Settings) (seed : Seed)
    (operations : List Operation) :
    ∃ s q, create variant settings seed = .ok s ∧ s.history operations = .ok q ∧
      (∀ placed ∈ q.program.blocks, Block.find? placed.block.id = some placed.block ∧
        q.variant.supports placed.action = true ∧
        (placed.block.id ∈ q.variant.paletteIds ∨ placed.block.id ∈ q.variant.twinIds)) ∧
      (q.variant ≠ .ruins → q.variant ≠ .miner →
        ∀ placed ∈ q.program.blocks, placed.block.id ∈ q.variant.paletteIds) ∧
      (q.state = .idle → ∀ id, (q.append id).1.isSome = true ↔
        id ∈ q.variant.paletteIds ∨ id ∈ q.variant.twinIds) ∧
      ∀ other, ∃ l, q.load other = .ok l ∧ l.variant = other ∧ l.program.blocks = [] := by
  obtain ⟨s, hcreate, -, -, hnew⟩ := exists_create variant settings seed
  obtain ⟨_, -, -, hhistory⟩ := hnew.exists_chronicle operations
  generalize List.getLastD _ _ = q at hhistory
  have hblank : s.Offered := by
    obtain ⟨_, -, h⟩ := bind_eq_ok.mp hcreate
    obtain rfl := Except.ok.inj h
    exact fun placed hmem => absurd hmem List.not_mem_nil
  have hoffered : q.Offered :=
    history_induction (fun h hs => h.of_perform hs) hblank hhistory
  refine ⟨s, q, hcreate, hhistory, fun placed hmem => ?_, fun hruins hminer placed hmem => ?_,
    fun hidle => ?_, fun other => ?_⟩
  · obtain ⟨hknown, hids⟩ := hoffered placed hmem
    exact ⟨hknown, (q.variant.supports_iff _ (Block.mem_of_find? hknown).1).mpr hids, hids⟩
  · refine (hoffered placed hmem).offered.resolve_right ?_
    generalize q.variant = v at hruins hminer
    cases v with
    | ruins => exact absurd rfl hruins
    | miner => exact absurd rfl hminer
    | maze | flight | orchard => exact List.not_mem_nil
  · obtain ⟨-, -, hopen, -⟩ := (hnew.of_history hhistory).shape_of_state hidle
    exact isSome_append_iff hopen
  · obtain ⟨l, hload, -⟩ := q.exists_load other
    exact ⟨l, hload, Offered.blocks_of_load hload⟩

/-- **A twin gets in**: the ruins take the miner's step, which is not in their toolbox. -/
theorem program_offered_twin : ∃ s q, create .ruins .standard ⟨0⟩ = .ok s ∧
    s.history [.append "sb1"] = .ok q ∧ q.variant = .ruins ∧
    ¬ ∀ placed ∈ q.program.blocks, placed.block.id ∈ q.variant.paletteIds := by
  obtain ⟨s, hcreate, -⟩ := exists_create .ruins .standard ⟨0⟩
  have hplaced : (create .ruins .standard ⟨0⟩).map (fun s =>
      (s.history [.append "sb1"]).map fun q =>
        (q.variant, q.program.blocks.map (·.block.id))) = .ok (.ok (.ruins, ["sb1"])) := by
    decide +kernel
  rw [hcreate] at hplaced
  obtain ⟨q, hq, hplaced⟩ := map_eq_ok.mp (Except.ok.inj hplaced)
  obtain ⟨hvariant, hids⟩ := Prod.mk.inj hplaced
  refine ⟨s, q, hcreate, hq, hvariant, fun hall => ?_⟩
  have hmem : "sb1" ∈ q.program.blocks.map (·.block.id) := by
    rw [hids]
    exact List.mem_singleton_self _
  obtain ⟨placed, hplaced, hid⟩ := List.mem_map.mp hmem
  have hpalette := hall placed hplaced
  rw [hid, hvariant] at hpalette
  exact absurd hpalette (by decide)

end Session

end BlockCoding
