import BlockCoding.Proofs.Level.Worlds
import BlockCoding.Proofs.Run.Soundness
import BlockCoding.Session.Play

/-!
# Proofs/Session/Kinds — worlds and runs of the kind their variant asks for

A grid variant has its rules, and its worlds and runs are grids under them; a flight has a sky, and
catching has the orchard.  `Template.exists_roll` makes such a world for every variant, and
`ActiveRun.Fits.exists_advance` keeps a run of its kind as it advances.
-/

namespace BlockCoding

/-- The rules of a grid variant. -/
def Variant.rules? : Variant → Option Rules
  | .maze _ => some .maze
  | .ruins => some .ruins
  | .miner => some .miner
  | .flight | .orchard => none

/-! ## Worlds -/

/-- **The world is of the kind of the variant**; a grid is well formed and under its rules. -/
inductive Template.Fits : Variant → Template → Prop where
  | grid {variant : Variant} {world : Grid} {rules : Rules} (ruled : variant.rules? = some rules)
      (wellFormed : world.WellFormed) : Fits variant (.grid world rules)
  | sky (layout : Sky) : Fits .flight (.sky layout)
  | orchard : Fits .orchard .orchard

/-- **Every variant gets a world of its kind.** -/
theorem Template.exists_roll (variant : Variant) (source : Pcg) :
    ∃ template later, roll variant source = .ok (template, later) ∧ Fits variant template := by
  cases variant with
  | maze levelId =>
    obtain ⟨g, hbuild, hg⟩ := MazeLevel.exists_build levelId
    exact ⟨.grid g .maze, source, by simp [roll, hbuild], .grid rfl hg⟩
  | ruins => exact ⟨_, _, rfl, .grid rfl Ruins.wellFormed_grid⟩
  | miner =>
    have hworld := Mine.wellFormed_generate source
    simp only [roll]
    generalize Mine.generate source = mine at hworld
    exact ⟨_, _, rfl, .grid rfl hworld⟩
  | flight =>
    simp only [roll]
    generalize Sky.roll Flight.startPos source = sky
    exact ⟨_, _, rfl, .sky _⟩
  | orchard => exact ⟨_, _, rfl, .orchard⟩

/-- Only grid variants celebrate, by their rules. -/
theorem Template.Fits.exists_rules {variant : Variant} {template : Template}
    (h : template.Fits variant) (hc : template.celebrates = true) :
    ∃ rules, variant.rules? = some rules ∧ rules.celebrate = true := by
  cases h with
  | grid ruled wellFormed => exact ⟨_, ruled, hc⟩
  | sky | orchard => cases hc

/-! ## Runs -/

namespace ActiveRun

/-- The verdict that a run carries itself. -/
def verdict? : ActiveRun → Option Verdict
  | .grid r => r.verdict
  | .flight _ | .orchard _ => none

/-- The number of cells that a grid run has collected. -/
def collected : ActiveRun → Nat
  | .grid r => r.context.collected.size
  | .flight _ | .orchard _ => 0

/-- **The run is of the kind of the variant**; a grid run is sound and under its rules. -/
inductive Fits : Variant → ActiveRun → Prop where
  | grid {variant : Variant} {r : GridRun} (ruled : variant.rules? = some r.rules)
      (sound : r.Sound) : Fits variant (.grid r)
  | flight (state : Flight) : Fits .flight (.flight state)
  | orchard (state : Orchard) : Fits .orchard (.orchard state)

/-- A run starts with the kind of its world, without verdict and with nothing collected. -/
theorem fits_launch {variant : Variant} {template : Template} (h : template.Fits variant)
    (program : Program) : (launch template program).Fits variant ∧
      (launch template program).verdict? = none ∧ (launch template program).collected = 0 := by
  cases h with
  | grid ruled wellFormed =>
    exact ⟨.grid ruled (GridRun.sound_start wellFormed _ program.actions), rfl, rfl⟩
  | sky layout => exact ⟨.flight _, rfl, rfl⟩
  | orchard => exact ⟨.orchard _, rfl, rfl⟩

/-- **What one step of a run comes to**, of the kind that it is: a grid run carries its verdict and
collects what it announces; the others carry none. -/
inductive Advanced : ActiveRun → Tick ActiveRun Pcg → Prop where
  | grid {r r' : GridRun} {events : List Event} (source : Pcg)
      (collected : r'.context.collected.size
        = r.context.collected.size + events.countP Event.isCollected) :
      Advanced (.grid r) ⟨r'.verdict, events, .grid r', source⟩
  | flight (f f' : Flight) (verdict : Option Verdict) (events : List Event) (source : Pcg) :
      Advanced (.flight f) ⟨verdict, events, .flight f', source⟩
  | orchard (o o' : Orchard) (verdict : Option Verdict) (events : List Event) (source : Pcg) :
      Advanced (.orchard o) ⟨verdict, events, .orchard o', source⟩

/-- A step that ends nothing leaves a run without verdict. -/
theorem Advanced.verdict?_eq_none {run : ActiveRun} {t : Tick ActiveRun Pcg} (h : run.Advanced t)
    (hv : t.verdict = none) : t.state.verdict? = none := by
  cases h with
  | grid => exact hv
  | flight | orchard => rfl

/-- The verdict of a step of a grid run is the one that the run carries. -/
theorem Advanced.verdict_eq {run : ActiveRun} {t : Tick ActiveRun Pcg} (h : run.Advanced t)
    {r : GridRun} (hr : t.state = .grid r) : r.verdict = t.verdict := by
  cases h with
  | grid =>
    obtain rfl := ActiveRun.grid.inj hr
    rfl
  | flight | orchard => cases hr

/-- The runs of a grid variant are grid runs under its rules. -/
theorem Fits.exists_grid {variant : Variant} {run : ActiveRun} (h : run.Fits variant)
    {rules : Rules} (hr : variant.rules? = some rules) :
    ∃ r, run = .grid r ∧ r.rules = rules := by
  cases h with
  | grid ruled => exact ⟨_, rfl, Option.some.inj (ruled.symm.trans hr)⟩
  | flight | orchard => cases hr

/-- **A run that is not over advances**, and stays of its kind. -/
theorem Fits.exists_advance {variant : Variant} {run : ActiveRun} (h : run.Fits variant)
    (hv : run.verdict? = none) (source : Pcg) :
    ∃ t, run.advance source = .ok t ∧ t.state.Fits variant ∧ run.Advanced t := by
  cases h with
  | grid ruled sound =>
    obtain ⟨events, r', hstep, hsound, hrules, hcollected⟩ := sound.exists_step hv
    exact ⟨⟨r'.verdict, events, .grid r', source⟩, by rw [advance, hstep]; rfl,
      .grid (hrules ▸ ruled) hsound, .grid source hcollected⟩
  | flight state => exact ⟨_, rfl, .flight _, .flight ..⟩
  | orchard state => exact ⟨_, rfl, .orchard _, .orchard ..⟩

/-- What a run that is not over advances to is of its kind. -/
theorem Fits.of_advance {variant : Variant} {run : ActiveRun} (h : run.Fits variant)
    (hv : run.verdict? = none) {source : Pcg} {t : Tick ActiveRun Pcg}
    (ht : run.advance source = .ok t) : t.state.Fits variant ∧ run.Advanced t := by
  obtain ⟨t', ht', hfits, hadvanced⟩ := h.exists_advance hv source
  obtain rfl : t' = t := Except.ok.inj (ht'.symm.trans ht)
  exact ⟨hfits, hadvanced⟩

end ActiveRun

end BlockCoding
