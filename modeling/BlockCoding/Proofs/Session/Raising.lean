import BlockCoding.Proofs.Run.Asking
import BlockCoding.Proofs.Session.Ledger
import BlockCoding.Proofs.Session.Rerun
import BlockCoding.Proofs.Stage.Ticking

/-!
# Proofs/Session/Raising — what a session raises from one moment to the next

Most events tell of something that occurs in the world of a run.  An action raises no others, nor
does a frame of a stage (`Effect.occurs`, `Flight.occurs_tick`, `Orchard.occurs_tick`); besides
them there are the blocks that a grid run executes and the announcement of a verdict.  Only a run
under way raises anything (`Passes.raised_eq_nil`), and what it raises is what its step tells and,
at the end, the announcement (`raised_of_concluded`).
-/

namespace BlockCoding

/-! ## Occurrences -/

section Stage

variable {σ : Type} [RandomSource σ]

/-- A flight that proceeds tells only of what occurs, if that is all that was told. -/
theorem Flight.Comes.occurs {f : Flight} {next : Point} {events : List Event} {source : σ}
    {t : Tick Flight σ} (h : f.Comes next events source t)
    (hevents : events.all Event.isOccurrence = true) :
    t.events.all Event.isOccurrence = true := by
  cases h with
  | storm | far => exact hevents
  | last | star =>
    rw [List.all_append, hevents]
    rfl

/-- **A frame of a flight tells only of what occurs.** -/
theorem Flight.occurs_tick (f : Flight) (source : σ) :
    (f.tick source).events.all Event.isOccurrence = true := by
  have hticks := f.ticks_tick source
  generalize f.tick source = t at hticks ⊢
  cases hticks with
  | stalled | edge => rfl
  | inside _ _ comes => exact comes.occurs rfl
  | bounced _ _ _ comes => exact comes.occurs rfl

/-- Fruits that fall tell only of what occurs. -/
theorem Orchard.occurs_settle (playerX : Float32) (scoring : Bool) (score : Nat)
    (fruits : List Fruit) :
    (settle playerX scoring score fruits).2.2.all Event.isOccurrence = true := by
  induction fruits generalizing score with
  | nil => rfl
  | cons f fruits ih =>
    rw [settle]
    split
    · split
      · exact ih (score + 1)
      · exact ih score
    · exact ih score

/-- **A frame of an orchard tells only of what occurs.** -/
theorem Orchard.occurs_tick (o : Orchard) (source : σ) :
    (o.tick source).events.all Event.isOccurrence = true := occurs_settle _ _ _ _

end Stage

/-! ## What an advance is -/

namespace ActiveRun

/-- **What an advance of a run is**: a step of a grid run, or a frame of a stage. -/
inductive AdvancesTo : ActiveRun → Pcg → Tick ActiveRun Pcg → Prop where
  | grid {r r' : GridRun} {events : List Event} (source : Pcg) (sound : r.Sound)
      (ongoing : r.verdict = none) (step : r.step = .ok (events, r'))
      (stepped : r.Stepped events r') :
      AdvancesTo (.grid r) source ⟨r'.verdict, events, .grid r', source⟩
  | flight (f : Flight) (source : Pcg) : AdvancesTo (.flight f) source
      ⟨(f.tick source).verdict, (f.tick source).events, .flight (f.tick source).state,
        (f.tick source).source⟩
  | orchard (o : Orchard) (source : Pcg) : AdvancesTo (.orchard o) source
      ⟨(o.tick source).verdict, (o.tick source).events, .orchard (o.tick source).state,
        (o.tick source).source⟩

/-- A run that is not over advances like this. -/
theorem Fits.advancesTo {variant : Variant} {run : ActiveRun} (h : run.Fits variant)
    (hv : run.verdict? = none) {source : Pcg} {t : Tick ActiveRun Pcg}
    (ht : run.advance source = .ok t) : run.AdvancesTo source t := by
  cases h with
  | grid ruled sound =>
    obtain ⟨events, r', hstep, hstepped, -⟩ := sound.exists_stepped hv
    rw [advance, hstep] at ht
    obtain rfl := Except.ok.inj ht
    exact .grid source sound hv hstep hstepped
  | flight f =>
    obtain rfl := Except.ok.inj ht
    exact .flight f source
  | orchard o =>
    obtain rfl := Except.ok.inj ht
    exact .orchard o source

end ActiveRun

/-! ## The consequences of a verdict -/

/-- The session announces the verdict at most. -/
theorem ActiveRun.eq_of_mem_announcement {run : ActiveRun} {verdict : Verdict} {event : Event}
    (h : event ∈ run.announcement verdict) : event = .finished verdict := by
  cases run with
  | grid => exact absurd h List.not_mem_nil
  | flight | orchard => exact List.mem_singleton.mp h

namespace Play

variable (p : Play) (celebrates : Bool) (run : ActiveRun) (verdict : Verdict)

theorem verdict_conclude : (p.conclude celebrates run verdict).1.verdict = some verdict := by
  cases verdict <;> cases celebrates <;> simp [conclude]

theorem run_conclude : (p.conclude celebrates run verdict).1.run = p.run := by
  cases verdict <;> cases celebrates <;> simp [conclude]

/-- The verdict is announced, and then the celebration if there is one. -/
theorem events_conclude : (p.conclude celebrates run verdict).1.events
    = p.events ++ (run.announcement verdict
      ++ if celebrates = true ∧ verdict = .win then [.celebrating] else []) := by
  cases verdict <;> cases celebrates <;> simp [conclude]

end Play

/-! ## What a passage raises -/

namespace Session

variable {s s' : Session}

/-- A session that stays where it is raises nothing. -/
theorem Still.raised_eq (h : s.Still s') : s.raised s' = [] := by
  rcases h.events with hsame | hnone
  · exact raised_of_events (hsame.trans (List.append_nil _).symm)
  · rw [raised, hnone, List.drop_nil]

/-- **The step that ends a run** raises what it tells and the announcement of the verdict. -/
theorem raised_of_concluded {t : Tick ActiveRun Pcg} {verdict : Verdict}
    (hplay : s'.play = ((s.play.after t).conclude s.template.celebrates t.state verdict).1) :
    s.raised s' = t.events ++ (t.state.announcement verdict
      ++ if s.template.celebrates = true ∧ verdict = .win then [.celebrating] else []) := by
  refine raised_of_events ?_
  rw [hplay, Play.events_conclude, Play.after, List.append_assoc]

/-- **Only a run under way raises anything.** -/
theorem Passes.raised_eq_nil (h : s.Passes s') (hs : s.state ≠ .running) : s.raised s' = [] := by
  cases h with
  | still same => exact same.raised_eq
  | launched | returned => exact raised_of_events (List.append_nil _).symm
  | advanced running | concluded running => exact absurd running hs
  | declared =>
    exact raised_of_events ((Play.events_enterWin _).trans (List.append_nil _).symm)

/-- A passage adds what it raises to the buffer, or the buffer has been taken. -/
theorem Passes.events_eq (h : s.Passes s') :
    s'.play.events = s.play.events ++ s.raised s' ∨ s'.play.events = [] := by
  have hadded : ∀ {raised}, s'.play.events = s.play.events ++ raised →
      s'.play.events = s.play.events ++ s.raised s' := by
    intro raised hevents
    rw [hevents, raised_of_events hevents]
  cases h with
  | still same =>
    rcases same.events with hsame | hnone
    · exact .inl (hadded (hsame.trans (List.append_nil _).symm))
    · exact .inr hnone
  | launched | returned => exact .inl (hadded (List.append_nil _).symm)
  | advanced => exact .inl (hadded rfl)
  | concluded =>
    exact .inl (hadded ((Play.events_conclude _ _ _ _).trans (List.append_assoc _ _ _)))
  | declared => exact .inl (hadded ((Play.events_enterWin _).trans (List.append_nil _).symm))

/-- **All events raised along a sequence of moments**, in order. -/
def emitted (s : Session) : List Session → List Event
  | [] => []
  | m :: later => s.raised m ++ m.emitted later

/-- **No event is in the buffer that was not there or has been emitted.** -/
theorem suffix_emitted {path : List Session} (hpath : (s :: path).IsChain Passes) :
    (path.getLastD s).play.events <:+ s.play.events ++ s.emitted path := by
  induction path generalizing s with
  | nil =>
    rw [emitted, List.append_nil]
    exact List.suffix_rfl
  | cons m path ih =>
    obtain ⟨hm, hpath⟩ := List.isChain_cons_cons.mp hpath
    rw [List.getLastD_cons, emitted, ← List.append_assoc]
    refine (ih hpath).trans ?_
    rcases hm.events_eq with hadded | hnone
    · exact ⟨[], by rw [hadded, List.nil_append]⟩
    · rw [hnone]
      exact List.suffix_append _ _

end Session

end BlockCoding
