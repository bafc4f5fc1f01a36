import BlockCoding.Proofs.Fault
import BlockCoding.Proofs.Json.Records
import BlockCoding.Store.Blocks
import BlockCoding.Store.Files
import BlockCoding.Store.Run

/-!
# Proofs/Store/Forms — what is stored comes back

The stored form of every variant, verdict, grid, rule set, context and progress record holds that
value (`stored`, type by type): it is read from the form, and from any text of it.  A record is read
as a value if its members are read as the value's fields (`ofJson?_record`); that is stated for any
members, so that no proof has to compute with a number.  Main statement: `stored_values_come_back`.
-/

namespace BlockCoding

open Json (Holds)

/-! ## Grids -/

namespace Cell

theorem ofJson?_record {c : Cell} {x y : Json} (hx : x.int32? = some c.x)
    (hy : y.int32? = some c.y) : ofJson? (.record [("x", x), ("y", y)]) = some c := by
  have hslots : (Json.record [("x", x), ("y", y)]).slots? ["x", "y"] = some [.given x, .given y] :=
    Json.slots?_record (by decide) _ rfl
  simp [ofJson?, hslots, Json.Slot.required, hx, hy]

theorem stored (c : Cell) : c.toJson.Holds ofJson? c where
  legible := Json.legible_record (by simp [Json.legible_ofInt])
  read_eq := ofJson?_record (Json.holds_int32 _).read_eq (Json.holds_int32 _).read_eq

end Cell

namespace Heading

theorem stored (h : Heading) : h.toJson.Holds ofJson? h :=
  Json.holds_bare (by cases h <;> decide)

end Heading

namespace Tile

theorem stored (t : Tile) : t.toJson.Holds ofJson? t :=
  Json.holds_bare (by cases t <;> decide)

end Tile

namespace Grid

theorem ofJson?_record {g : Grid} {width height tiles start heading : Json}
    (hwidth : width.int32? = some g.width) (hheight : height.int32? = some g.height)
    (htiles : tiles.list? Tile.ofJson? = some g.tiles.toList)
    (hstart : Cell.ofJson? start = some g.start)
    (hheading : Heading.ofJson? heading = some g.startHeading) :
    ofJson? (.record [("width", width), ("height", height), ("tiles", tiles), ("start", start),
      ("start_heading", heading)]) = some g := by
  have hslots : (Json.record [("width", width), ("height", height), ("tiles", tiles),
      ("start", start), ("start_heading", heading)]).slots?
        ["width", "height", "tiles", "start", "start_heading"]
      = some [.given width, .given height, .given tiles, .given start, .given heading] :=
    Json.slots?_record (by decide) _ rfl
  simp [ofJson?, hslots, Json.Slot.required, hwidth, hheight, htiles, hstart, hheading]

theorem stored (g : Grid) : g.toJson.Holds ofJson? g where
  legible := Json.legible_record (by
    simp [Json.legible_ofInt, (Json.holds_list Tile.stored _).legible, g.start.stored.legible,
      g.startHeading.stored.legible])
  read_eq := ofJson?_record (Json.holds_int32 _).read_eq (Json.holds_int32 _).read_eq
    (Json.holds_list Tile.stored _).read_eq g.start.stored.read_eq g.startHeading.stored.read_eq

end Grid

/-! ## Variants -/

namespace Variant

theorem ofJson?_maze {levelId : Json} {id : String} (h : levelId.string? = some id) :
    ofJson? (.tagged "Maze" (.record [("level_id", levelId)])) = some (maze id) := by
  have hslots : (Json.record [("level_id", levelId)]).slots? ["level_id"]
      = some [.given levelId] := Json.slots?_record (by decide) _ rfl
  rw [ofJson?, Json.case?_tagged]
  simp [hslots, Json.Slot.required, h]

theorem ofJson?_ofString (name : String) :
    ofJson? (.ofString name) = (Json.ofString name).bareCase? bare storedName := by
  rw [ofJson?, Json.case?_ofString]
  split
  · next h => cases h
  · rfl

theorem holds_bare {v : Variant}
    (h : bare.find? (fun w => w.storedName == v.storedName) = some v) :
    (Json.ofString v.storedName).Holds ofJson? v where
  legible := (Json.holds_string _).legible
  read_eq := (ofJson?_ofString _).trans (Json.holds_bare h).read_eq

theorem stored (v : Variant) : v.toJson.Holds ofJson? v := by
  cases v with
  | maze levelId =>
    have hid := Json.holds_string levelId
    exact ⟨Json.legible_tagged (Json.legible_record (by simp [hid.legible])) _,
      ofJson?_maze hid.read_eq⟩
  | ruins | miner | flight | orchard => exact holds_bare (by decide)

end Variant

/-! ## Rules -/

namespace Costs

theorem ofJson?_record {c : Costs} {step turn sense collect : Json}
    (hstep : step.uint32? = some c.step) (hturn : turn.uint32? = some c.turn)
    (hsense : sense.uint32? = some c.sense) (hcollect : collect.uint32? = some c.collect) :
    ofJson? (.record [("step", step), ("turn", turn), ("sense", sense), ("collect", collect)])
      = some c := by
  have hslots : (Json.record [("step", step), ("turn", turn), ("sense", sense),
      ("collect", collect)]).slots? ["step", "turn", "sense", "collect"]
        = some [.given step, .given turn, .given sense, .given collect] :=
    Json.slots?_record (by decide) _ rfl
  simp [ofJson?, hslots, Json.Slot.required, hstep, hturn, hsense, hcollect]

theorem stored (c : Costs) : c.toJson.Holds ofJson? c where
  legible := Json.legible_record (by simp [Json.legible_ofNat])
  read_eq := ofJson?_record (Json.holds_uint32 _).read_eq (Json.holds_uint32 _).read_eq
    (Json.holds_uint32 _).read_eq (Json.holds_uint32 _).read_eq

end Costs

namespace Pickup

theorem stored (p : Pickup) : p.toJson.Holds ofJson? p :=
  Json.holds_bare (by cases p <;> decide)

end Pickup

namespace WinRule

theorem threshold?_record {n : UInt64} {required : Json} (h : required.uint64? = some n) :
    threshold? (.record [("required", required)]) = some n := by
  have hslots : (Json.record [("required", required)]).slots? ["required"]
      = some [.given required] := Json.slots?_record (by decide) _ rfl
  simp [threshold?, hslots, Json.Slot.required, h]

theorem holds_thresholdJson (required : UInt64) :
    (thresholdJson required).Holds threshold? required where
  legible := Json.legible_record (by simp [Json.legible_ofNat])
  read_eq := threshold?_record (Json.holds_uint64 _).read_eq

theorem ofJson?_tagged {n : UInt64} {payload : Json} (h : threshold? payload = some n) :
    ofJson? (.tagged "ReachGoal" payload) = some (reachGoal n) ∧
      ofJson? (.tagged "Collect" payload) = some (collect n) := by
  constructor <;>
  · rw [ofJson?, Json.case?_tagged]
    simp [h]

theorem stored (w : WinRule) : w.toJson.Holds ofJson? w := by
  cases w with
  | reachGoal required =>
    have hthreshold := holds_thresholdJson required
    exact ⟨Json.legible_tagged hthreshold.legible _, (ofJson?_tagged hthreshold.read_eq).1⟩
  | collect required =>
    have hthreshold := holds_thresholdJson required
    exact ⟨Json.legible_tagged hthreshold.legible _, (ofJson?_tagged hthreshold.read_eq).2⟩

end WinRule

namespace Reward

theorem ofJson?_fixed {n : UInt32} {amount : Json} (h : amount.uint32? = some n) :
    ofJson? (.tagged "Fixed" amount) = some (fixed n) := by
  rw [ofJson?, Json.case?_tagged]
  simp [h]

theorem stored (r : Reward) : r.toJson.Holds ofJson? r := by
  cases r with
  | collected =>
    refine ⟨(Json.holds_string _).legible, ?_⟩
    rw [toJson, ofJson?, Json.case?_ofString]
    rfl
  | fixed amount =>
    have hamount := Json.holds_uint32 amount
    exact ⟨Json.legible_tagged hamount.legible _, ofJson?_fixed hamount.read_eq⟩

end Reward

namespace Rules

theorem ofJson?_record {r : Rules} {costs energy pickup win reward celebrate : Json}
    (hcosts : Costs.ofJson? costs = some r.costs) (henergy : energy.uint32? = some r.startEnergy)
    (hpickup : Pickup.ofJson? pickup = some r.pickup) (hwin : WinRule.ofJson? win = some r.win)
    (hreward : Reward.ofJson? reward = some r.reward)
    (hcelebrate : celebrate.bool? = some r.celebrate) :
    ofJson? (.record [("costs", costs), ("start_energy", energy), ("pickup", pickup), ("win", win),
      ("reward", reward), ("celebrate", celebrate)]) = some r := by
  have hslots : (Json.record [("costs", costs), ("start_energy", energy), ("pickup", pickup),
      ("win", win), ("reward", reward), ("celebrate", celebrate)]).slots?
        ["costs", "start_energy", "pickup", "win", "reward", "celebrate"]
      = some [.given costs, .given energy, .given pickup, .given win, .given reward,
        .given celebrate] := Json.slots?_record (by decide) _ rfl
  simp [ofJson?, hslots, Json.Slot.required, hcosts, henergy, hpickup, hwin, hreward, hcelebrate]

theorem stored (r : Rules) : r.toJson.Holds ofJson? r where
  legible := Json.legible_record (by
    simp [Json.legible_ofNat, r.costs.stored.legible, r.pickup.stored.legible, r.win.stored.legible,
      r.reward.stored.legible, (Json.holds_bool _).legible])
  read_eq := ofJson?_record r.costs.stored.read_eq (Json.holds_uint32 _).read_eq
    r.pickup.stored.read_eq r.win.stored.read_eq r.reward.stored.read_eq (Json.holds_bool _).read_eq

end Rules

/-! ## Verdicts -/

namespace FailCause

theorem ofJson?_offGrid {c : Cell} {cell : Json} (h : Cell.ofJson? cell = some c) :
    ofJson? (.tagged "OffGrid" (.record [("cell", cell)])) = some (offGrid c) := by
  have hslots : (Json.record [("cell", cell)]).slots? ["cell"] = some [.given cell] :=
    Json.slots?_record (by decide) _ rfl
  rw [ofJson?, Json.case?_tagged]
  simp [hslots, Json.Slot.required, h]

theorem ofJson?_blocked {c : Cell} {t : Tile} {cell tile : Json}
    (hcell : Cell.ofJson? cell = some c) (htile : Tile.ofJson? tile = some t) :
    ofJson? (.tagged "Blocked" (.record [("cell", cell), ("tile", tile)]))
      = some (blocked c t) := by
  have hslots : (Json.record [("cell", cell), ("tile", tile)]).slots? ["cell", "tile"]
      = some [.given cell, .given tile] := Json.slots?_record (by decide) _ rfl
  rw [ofJson?, Json.case?_tagged]
  simp [hslots, Json.Slot.required, hcell, htile]

theorem ofJson?_hazard {n : UInt64} {index : Json} (h : index.uint64? = some n) :
    ofJson? (.tagged "Hazard" (.record [("index", index)])) = some (hazard n) := by
  have hslots : (Json.record [("index", index)]).slots? ["index"] = some [.given index] :=
    Json.slots?_record (by decide) _ rfl
  rw [ofJson?, Json.case?_tagged]
  simp [hslots, Json.Slot.required, h]

theorem ofJson?_ofString (name : String) :
    ofJson? (.ofString name) = (Json.ofString name).bareCase? bare storedName := by
  rw [ofJson?, Json.case?_ofString]
  split
  · next h => cases h
  · next h => cases h
  · next h => cases h
  · rfl

theorem holds_bare {cause : FailCause}
    (h : bare.find? (fun c => c.storedName == cause.storedName) = some cause) :
    (Json.ofString cause.storedName).Holds ofJson? cause where
  legible := (Json.holds_string _).legible
  read_eq := (ofJson?_ofString _).trans (Json.holds_bare h).read_eq

theorem stored (cause : FailCause) : cause.toJson.Holds ofJson? cause := by
  cases cause with
  | offGrid cell =>
    exact ⟨Json.legible_tagged (Json.legible_record (by simp [cell.stored.legible])) _,
      ofJson?_offGrid cell.stored.read_eq⟩
  | blocked cell tile =>
    exact ⟨Json.legible_tagged
        (Json.legible_record (by simp [cell.stored.legible, tile.stored.legible])) _,
      ofJson?_blocked cell.stored.read_eq tile.stored.read_eq⟩
  | hazard index =>
    exact ⟨Json.legible_tagged (Json.legible_record (by simp [Json.legible_ofNat])) _,
      ofJson?_hazard (Json.holds_uint64 index).read_eq⟩
  | outOfEnergy | incomplete | stalled | hitEdge => exact holds_bare (by decide)

end FailCause

namespace Verdict

theorem ofJson?_fail {cause : FailCause} {payload : Json}
    (h : FailCause.ofJson? payload = some cause) :
    ofJson? (.tagged "Fail" payload) = some (fail cause) := by
  rw [ofJson?, Json.case?_tagged]
  simp [h]

theorem stored (v : Verdict) : v.toJson.Holds ofJson? v := by
  cases v with
  | win =>
    refine ⟨(Json.holds_string _).legible, ?_⟩
    rw [toJson, ofJson?, Json.case?_ofString]
    rfl
  | fail cause =>
    have hcause := cause.stored
    exact ⟨Json.legible_tagged hcause.legible _, ofJson?_fail hcause.read_eq⟩

end Verdict

/-! ## Contexts -/

/-- The cells of a set that is made from a list, one after the other. -/
theorem CellSet.mem_foldl_insert {c : Cell} (cells : List Cell) (s : CellSet) :
    c ∈ (cells.foldl insert s).cells ↔ c ∈ cells ∨ c ∈ s.cells := by
  induction cells generalizing s with
  | nil => simp
  | cons d cells ih => rw [List.foldl_cons, ih, mem_insert, List.mem_cons, or_assoc, or_left_comm]

/-- The set of the cells that a set lists is that set. -/
theorem CellSet.ofList_cells (s : CellSet) : ofList s.cells = s :=
  ext_mem fun c => by simp [ofList, mem_foldl_insert, empty]

namespace Context

theorem ofJson?_record {ctx : Context} {pos heading energy collected gateOpen : Json}
    (hpos : Cell.ofJson? pos = some ctx.pos) (hheading : Heading.ofJson? heading = some ctx.heading)
    (henergy : energy.uint32? = some ctx.energy)
    (hcollected : collected.list? Cell.ofJson? = some ctx.collected.cells)
    (hgateOpen : gateOpen.bool? = some ctx.gateOpen) :
    ofJson? (.record [("pos", pos), ("heading", heading), ("energy", energy),
      ("collected", collected), ("gate_open", gateOpen)]) = some ctx := by
  have hslots : (Json.record [("pos", pos), ("heading", heading), ("energy", energy),
      ("collected", collected), ("gate_open", gateOpen)]).slots?
        ["pos", "heading", "energy", "collected", "gate_open"]
      = some [.given pos, .given heading, .given energy, .given collected, .given gateOpen] :=
    Json.slots?_record (by decide) _ rfl
  simp [ofJson?, hslots, Json.Slot.required, hpos, hheading, henergy, hcollected, hgateOpen,
    CellSet.ofList_cells]

theorem stored (ctx : Context) : ctx.toJson.Holds ofJson? ctx where
  legible := Json.legible_record (by
    simp [ctx.pos.stored.legible, ctx.heading.stored.legible, Json.legible_ofNat,
      (Json.holds_list Cell.stored _).legible, (Json.holds_bool _).legible])
  read_eq := ofJson?_record ctx.pos.stored.read_eq ctx.heading.stored.read_eq
    (Json.holds_uint32 _).read_eq (Json.holds_list Cell.stored _).read_eq
    (Json.holds_bool _).read_eq

end Context

/-! ## Progress -/

/-- The bytes of a text are read as that text. -/
theorem fileText_toUTF8 (text : String) : fileText (some text.toUTF8) = .ok text := by
  rw [fileText, Option.bind_some, String.fromUTF8?, String.toUTF8_eq_toByteArray,
    dif_pos text.isValidUTF8]
  rfl

namespace Progress

theorem ofJson?_record {p : Progress} {coins score wins : Json}
    (hcoins : coins.uint64? = some p.coins) (hscore : score.uint64? = some p.score)
    (hwins : wins.uint32? = some p.wins) :
    ofJson? (.record [("coins", coins), ("score", score), ("wins", wins)]) = some p := by
  have hslots : (Json.record [("coins", coins), ("score", score), ("wins", wins)]).slots?
      ["coins", "score", "wins"] = some [.given coins, .given score, .given wins] :=
    Json.slots?_record (by decide) _ rfl
  simp [ofJson?, hslots, Json.Slot.defaulted, hcoins, hscore, hwins]

theorem stored (p : Progress) : p.toJson.Holds ofJson? p where
  legible := Json.legible_record (by simp [Json.legible_ofNat])
  read_eq := ofJson?_record (Json.holds_uint64 _).read_eq (Json.holds_uint64 _).read_eq
    (Json.holds_uint32 _).read_eq

/-- **A saved record is loaded.** -/
theorem load_toText (p : Progress) : load (some p.toText.toUTF8) = p := by
  have htext : ofText p.toText = .ok p := by rw [ofText, toText, p.stored.compact]
  rw [load, fileText_toUTF8, ok_bind, htext]

end Progress

/-! ## All of them -/

/-- **Each value comes back** from the texts of its stored form, on one line or over several. -/
def ComesBack {α : Type} (write : α → Json) (read : Json → Option α) : Prop :=
  ∀ a, ∀ text ∈ [(write a).compact, (write a).pretty], (Json.read? text).bind read = some a

theorem comesBack_of_holds {α : Type} {write : α → Json} {read : Json → Option α}
    (h : ∀ a, (write a).Holds read a) : ComesBack write read := by
  intro a text htext
  simp only [List.mem_cons, List.not_mem_nil, or_false] at htext
  rcases htext with rfl | rfl
  · exact (h a).compact
  · exact (h a).pretty

/-- **What is stored comes back**: every variant with any level id, every verdict with any cause,
every grid of any dimensions and tiles, all rules, every context with any cells collected, and every
progress record, which is also what its file is loaded as. -/
theorem stored_values_come_back :
    ComesBack Variant.toJson Variant.ofJson? ∧
    ComesBack Verdict.toJson Verdict.ofJson? ∧
    ComesBack Grid.toJson Grid.ofJson? ∧
    ComesBack Rules.toJson Rules.ofJson? ∧
    ComesBack Context.toJson Context.ofJson? ∧
    ComesBack Progress.toJson Progress.ofJson? ∧
    ∀ p : Progress, Progress.load (some p.toText.toUTF8) = p :=
  ⟨comesBack_of_holds Variant.stored, comesBack_of_holds Verdict.stored,
    comesBack_of_holds Grid.stored, comesBack_of_holds Rules.stored,
    comesBack_of_holds Context.stored, comesBack_of_holds Progress.stored, Progress.load_toText⟩

end BlockCoding
