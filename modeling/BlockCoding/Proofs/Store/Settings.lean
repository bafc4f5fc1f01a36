import BlockCoding.Proofs.Json.Singles
import BlockCoding.Proofs.Single.Reading
import BlockCoding.Proofs.Store.Forms

/-!
# Proofs/Store/Settings — which settings survive a save

The stored form of settings holds them if all of their numbers are finite (`Settings.stored`).  An
infinite number is written as null, which is not read as a number, so what is saved then does not
read.  As no text is read as what is no number, settings that were read survive a save exactly if
none of their numbers is infinite (`Settings.survives_save`).
-/

namespace BlockCoding

open Json (Holds)

namespace Json

/-- What is not finite is written as null. -/
theorem ofSingle_of_not_isFinite {x : Float32} (hx : ¬ x.isFinite) : ofSingle x = null :=
  if_neg hx

theorem legible_ofSingle (x : Float32) : (ofSingle x).Legible := by
  by_cases hx : x.isFinite
  · exact (holds_single hx).legible
  · rw [ofSingle_of_not_isFinite hx]
    exact .null

/-- A number is read where one that is finite was written. -/
theorem isFinite_of_single?_ofSingle {x y : Float32} (h : (ofSingle x).single? = some y) :
    x.isFinite := by
  by_contra hx
  rw [ofSingle_of_not_isFinite hx] at h
  cases h

/-- **What is read is a number.** -/
theorem isNaN_of_single? {j : Json} {x : Float32} (h : j.single? = some x) : x.isNaN = false := by
  cases j with
  | number n =>
    have hdecimal {y : Float32} (hy : n.decimal.toSingle? = some y) : y.isNaN = false :=
      Decimal.isNaN_of_toSingle? hy
    rw [single?, Number.single?] at h
    split at h
    · split_ifs at h
      · obtain rfl := Option.some.inj h
        exact Single.isNaN_ofInt _
      · exact hdecimal h
    · exact hdecimal h
  | _ => cases h

theorem isNaN_of_defaulted {slot : Slot} {default x : Float32} (hdefault : default.isNaN = false)
    (h : slot.defaulted default single? = some x) : x.isNaN = false := by
  cases slot with
  | given j => exact isNaN_of_single? h
  | omitted | cut => exact Option.some.inj h ▸ hdefault

theorem holds_seed (seed : Option UInt64) :
    (ofOption (fun n : UInt64 => ofNat n.toNat) seed).Holds Settings.seed? seed := by
  cases seed with
  | none => exact ⟨.null, rfl⟩
  | some n =>
    refine ⟨legible_ofNat _, ?_⟩
    change ((ofNat n.toNat).uint64?).map some = _
    rw [(holds_uint64 n).read_eq, Option.map_some]

end Json

namespace StepDelays

/-- The numbers of the delays. -/
def singles (d : StepDelays) : List Float32 := [d.maze, d.ruins, d.miner]

theorem ofJson?_record_iff {d : StepDelays} {maze ruins miner : Json} :
    ofJson? (.record [("maze", maze), ("ruins", ruins), ("miner", miner)]) = some d ↔
      maze.single? = some d.maze ∧ ruins.single? = some d.ruins ∧ miner.single? = some d.miner := by
  have hslots : (Json.record [("maze", maze), ("ruins", ruins), ("miner", miner)]).slots?
      ["maze", "ruins", "miner"] = some [.given maze, .given ruins, .given miner] :=
    Json.slots?_record (by decide) _ rfl
  obtain ⟨a, b, c⟩ := d
  simp [ofJson?, hslots, Json.Slot.defaulted, Option.bind_eq_some_iff]

theorem stored {d : StepDelays} (h : ∀ x ∈ d.singles, x.isFinite) : d.toJson.Holds ofJson? d where
  legible := Json.legible_record (by simp [Json.legible_ofSingle])
  read_eq := by
    simp only [singles, List.forall_mem_cons] at h
    exact ofJson?_record_iff.mpr ⟨(Json.holds_single h.1).read_eq,
      (Json.holds_single h.2.1).read_eq, (Json.holds_single h.2.2.1).read_eq⟩

/-- What is read from a stored form was finite. -/
theorem isFinite_of_ofJson? {d e : StepDelays} (h : ofJson? d.toJson = some e) :
    ∀ x ∈ d.singles, x.isFinite := by
  obtain ⟨hmaze, hruins, hminer⟩ := ofJson?_record_iff.mp h
  simp [singles, Json.isFinite_of_single?_ofSingle hmaze, Json.isFinite_of_single?_ofSingle hruins,
    Json.isFinite_of_single?_ofSingle hminer]

theorem isNaN_of_ofJson? {j : Json} {d : StepDelays} (h : ofJson? j = some d) :
    ∀ x ∈ d.singles, x.isNaN = false := by
  rw [ofJson?] at h
  obtain ⟨slots, -, h⟩ := Option.bind_eq_some_iff.mp h
  split at h
  · simp only [Option.bind_eq_bind, Option.bind_eq_some_iff] at h
    obtain ⟨maze, hmaze, ruins, hruins, miner, hminer, hd⟩ := h
    obtain rfl := Option.some.inj hd
    exact List.forall_mem_cons.mpr ⟨Json.isNaN_of_defaulted (by decide) hmaze,
      List.forall_mem_cons.mpr ⟨Json.isNaN_of_defaulted (by decide) hruins,
        List.forall_mem_singleton.mpr (Json.isNaN_of_defaulted (by decide) hminer)⟩⟩
  · cases h

end StepDelays

namespace Settings

/-- The single-precision numbers of settings. -/
def singles (s : Settings) : List Float32 :=
  s.stepDelays.singles ++ [s.scanDelay, s.celebrateDwell, s.frameInterval]

theorem ofJson?_record_iff {s : Settings} {delays scan dwell frame steps seed skin : Json} :
    ofJson? (.record [("step_delays", delays), ("scan_delay", scan), ("celebrate_dwell", dwell),
      ("frame_interval", frame), ("max_steps_per_update", steps), ("seed", seed),
      ("active_skin", skin)]) = some s ↔
    StepDelays.ofJson? delays = some s.stepDelays ∧ scan.single? = some s.scanDelay ∧
      dwell.single? = some s.celebrateDwell ∧ frame.single? = some s.frameInterval ∧
      steps.uint32? = some s.maxStepsPerUpdate ∧ seed? seed = some s.seed ∧
      skin.string? = some s.activeSkin := by
  have hslots : (Json.record [("step_delays", delays), ("scan_delay", scan),
      ("celebrate_dwell", dwell), ("frame_interval", frame), ("max_steps_per_update", steps),
      ("seed", seed), ("active_skin", skin)]).slots? ["step_delays", "scan_delay",
        "celebrate_dwell", "frame_interval", "max_steps_per_update", "seed", "active_skin"]
      = some [.given delays, .given scan, .given dwell, .given frame, .given steps, .given seed,
        .given skin] :=
    Json.slots?_record (by decide) _ rfl
  obtain ⟨a, b, c, d, e, f, g⟩ := s
  simp [ofJson?, hslots, Json.Slot.defaulted, Option.bind_eq_some_iff]

theorem legible_toJson (s : Settings) : s.toJson.Legible := by
  have hdelays : s.stepDelays.toJson.Legible :=
    Json.legible_record (by simp [Json.legible_ofSingle])
  refine Json.legible_record ?_
  simp [hdelays, Json.legible_ofSingle, Json.legible_ofNat, (Json.holds_seed s.seed).legible,
    (Json.holds_string s.activeSkin).legible]

/-- **Settings with finite numbers are stored.** -/
theorem stored {s : Settings} (h : ∀ x ∈ s.singles, x.isFinite) : s.toJson.Holds ofJson? s where
  legible := s.legible_toJson
  read_eq := by
    rw [singles, List.forall_mem_append] at h
    simp only [List.forall_mem_cons] at h
    exact ofJson?_record_iff.mpr ⟨(StepDelays.stored h.1).read_eq,
      (Json.holds_single h.2.1).read_eq, (Json.holds_single h.2.2.1).read_eq,
      (Json.holds_single h.2.2.2.1).read_eq, (Json.holds_uint32 _).read_eq,
      (Json.holds_seed _).read_eq, (Json.holds_string _).read_eq⟩

/-- **No others are.** -/
theorem isFinite_of_ofJson? {s t : Settings} (h : ofJson? s.toJson = some t) :
    ∀ x ∈ s.singles, x.isFinite := by
  obtain ⟨hdelays, hscan, hdwell, hframe, -⟩ := ofJson?_record_iff.mp h
  rw [singles, List.forall_mem_append]
  refine ⟨StepDelays.isFinite_of_ofJson? hdelays, ?_⟩
  simp [Json.isFinite_of_single?_ofSingle hscan, Json.isFinite_of_single?_ofSingle hdwell,
    Json.isFinite_of_single?_ofSingle hframe]

theorem isNaN_of_ofJson? {j : Json} {s : Settings} (h : ofJson? j = some s) :
    ∀ x ∈ s.singles, x.isNaN = false := by
  rw [ofJson?] at h
  obtain ⟨slots, -, h⟩ := Option.bind_eq_some_iff.mp h
  split at h
  · next delays scan dwell frame steps seed skin =>
    simp only [Option.bind_eq_bind, Option.bind_eq_some_iff] at h
    obtain ⟨d, hdelays, a, hscan, b, hdwell, c, hframe, _, -, _, -, _, -, hs⟩ := h
    obtain rfl := Option.some.inj hs
    have hd : ∀ x ∈ d.singles, x.isNaN = false := by
      cases delays with
      | given j => exact StepDelays.isNaN_of_ofJson? hdelays
      | omitted | cut =>
        obtain rfl := Option.some.inj hdelays
        decide
    exact List.forall_mem_append.mpr ⟨hd, List.forall_mem_cons.mpr
      ⟨Json.isNaN_of_defaulted (by decide) hscan, List.forall_mem_cons.mpr
        ⟨Json.isNaN_of_defaulted (by decide) hdwell,
          List.forall_mem_singleton.mpr (Json.isNaN_of_defaulted (by decide) hframe)⟩⟩⟩
  · cases h

/-! ## Files -/

theorem tryLoad_toUTF8 (text : String) : tryLoad (some text.toUTF8) = ofText text := by
  rw [tryLoad, fileText_toUTF8, ok_bind]

theorem tryLoad_toText {s : Settings} (h : ∀ x ∈ s.singles, x.isFinite) :
    tryLoad (some s.toText.toUTF8) = .ok s := by
  rw [tryLoad_toUTF8, ofText, toText, (stored h).pretty]

theorem tryLoad_toText_of_not_isFinite {s : Settings} (h : ¬ ∀ x ∈ s.singles, x.isFinite) :
    tryLoad (some s.toText.toUTF8) = .error .json := by
  have hnone : ofJson? s.toJson = none :=
    Option.eq_none_iff_forall_ne_some.mpr fun t ht => h (isFinite_of_ofJson? ht)
  rw [tryLoad_toUTF8, ofText, toText, s.legible_toJson.read?_pretty, Option.bind_some, hnone]

theorem ofText_eq_ok_iff {text : String} {s : Settings} :
    ofText text = .ok s ↔ (Json.read? text).bind ofJson? = some s := by
  rw [ofText]
  cases (Json.read? text).bind ofJson? <;> simp

/-- What is read from a text is a number. -/
theorem isNaN_of_ofText {text : String} {s : Settings} (h : ofText text = .ok s) :
    ∀ x ∈ s.singles, x.isNaN = false := by
  obtain ⟨j, -, hj⟩ := Option.bind_eq_some_iff.mp (ofText_eq_ok_iff.mp h)
  exact isNaN_of_ofJson? hj

/-- With an infinite number, what is saved does not read. -/
theorem tryLoad_toText_of_isInf {s : Settings} {x : Float32} (hx : x ∈ s.singles)
    (hinf : x.isInf = true) : tryLoad (some s.toText.toUTF8) = .error .json := by
  refine tryLoad_toText_of_not_isFinite fun hfinite => ?_
  rw [Single.isInf_of_isFinite (hfinite x hx)] at hinf
  cases hinf

/-- So it is given up for the standard settings. -/
theorem load_toText_of_isInf {s : Settings} {x : Float32} (hx : x ∈ s.singles)
    (hinf : x.isInf = true) : load (some s.toText.toUTF8) = standard := by
  rw [load, tryLoad_toText_of_isInf hx hinf]

theorem isInf_of_mem_standard : ∀ x ∈ standard.singles, x.isInf = false := by decide

/-- **Settings that were read survive a save exactly if none of their numbers is infinite.**  What
was read are numbers; if one of them is infinite, what is saved does not read, and the standard
settings are loaded. -/
theorem survives_save {text : String} {s : Settings} (h : ofText text = .ok s) :
    (∀ x ∈ s.singles, x.isNaN = false) ∧
    (load (some s.toText.toUTF8) = s ↔ ∀ x ∈ s.singles, x.isInf = false) ∧
    ((∃ x ∈ s.singles, x.isInf = true) →
      tryLoad (some s.toText.toUTF8) = .error .json ∧
      load (some s.toText.toUTF8) = standard) := by
  have hnumbers := isNaN_of_ofText h
  refine ⟨hnumbers, ⟨fun hload x hx => ?_, fun hfinite => ?_⟩, fun ⟨x, hx, hinf⟩ =>
    ⟨tryLoad_toText_of_isInf hx hinf, load_toText_of_isInf hx hinf⟩⟩
  · cases hinf : x.isInf with
    | false => rfl
    | true =>
      obtain rfl := (load_toText_of_isInf hx hinf).symm.trans hload
      rw [← hinf, isInf_of_mem_standard x hx]
  · rw [load, tryLoad_toText fun x hx => Single.isFinite_of_isNaN (hnumbers x hx) (hfinite x hx)]

/-- A scan delay beyond the range is read as an infinite one. -/
theorem exists_ofText_infinite :
    ∃ s, ofText "\x7b\"scan_delay\":1e39\x7d" = .ok s ∧ s.scanDelay.isInf = true := by
  have hread : ((Json.read? "\x7b\"scan_delay\":1e39\x7d").bind ofJson?).map
      (·.scanDelay.isInf) = some true := by decide +kernel
  obtain ⟨s, hs, hinf⟩ := Option.map_eq_some_iff.mp hread
  exact ⟨s, ofText_eq_ok_iff.mpr hs, hinf⟩

/-- It is lost with all else. -/
theorem survives_save_infinite : ∃ s, ofText "\x7b\"scan_delay\":1e39\x7d" = .ok s ∧
    s.scanDelay.isInf = true ∧ load (some s.toText.toUTF8) = standard := by
  obtain ⟨s, hs, hinf⟩ := exists_ofText_infinite
  exact ⟨s, hs, hinf, ((survives_save hs).2.2 ⟨s.scanDelay, by simp [singles], hinf⟩).2⟩

/-- **Not all settings that were read survive a save.** -/
theorem lost_by_save : ¬ ∀ (text : String) (s : Settings), ofText text = .ok s →
    load (some s.toText.toUTF8) = s := by
  intro hall
  obtain ⟨s, hs, hinf⟩ := exists_ofText_infinite
  have hload := (load_toText_of_isInf (by simp [singles]) hinf).symm.trans (hall _ s hs)
  rw [← hload, isInf_of_mem_standard _ (by simp [singles])] at hinf
  cases hinf

end Settings

end BlockCoding
