import BlockCoding.Proofs.Session.Launch
import BlockCoding.Proofs.Session.Raising

/-!
# Proofs/Session/Announcement — every run announces its verdict once

A grid run announces its verdict itself, and for a stage the session does.  Either way a step that
ends nothing announces nothing, and one that ends the run announces the verdict last
(`AdvancesTo.announces`).  So from a launch on, whatever is fed, edited or drained, nothing is
announced while the run is under way, then the verdict once, with the celebration of a maze that is
won right after it, and nothing is raised any more (`verdict_announced_once`).
-/

namespace BlockCoding

/-! ## Announcing -/

/-- Whether an event announces the end of a run: its verdict, or the celebration of it. -/
def Event.isAnnouncement : Event → Bool
  | .finished _ | .celebrating => true
  | _ => false

/-- **Events that announce no end**: no verdict is among them and no celebration. -/
def Quiet (events : List Event) : Prop := ∀ event ∈ events, event.isAnnouncement = false

/-- **Events that announce a verdict, if there is one**, as the last of them. -/
def Announces (events : List Event) : Option Verdict → Prop
  | none => Quiet events
  | some verdict => ∃ earlier, Quiet earlier ∧ events = earlier ++ [.finished verdict]

namespace Quiet

variable {told events : List Event}

theorem nil : Quiet [] := fun _ hmem => absurd hmem List.not_mem_nil

theorem append (h : Quiet told) (h' : Quiet events) : Quiet (told ++ events) :=
  List.forall_mem_append.mpr ⟨h, h'⟩

/-- What occurs in a world is no end. -/
theorem of_occurs (h : events.all Event.isOccurrence = true) : Quiet events := by
  intro event hmem
  have hoccurs := List.all_eq_true.mp h event hmem
  cases event <;> first | rfl | cases hoccurs

/-- Nor is the start of a block. -/
theorem executing (index : Nat) (h : Quiet events) : Quiet (.executing index :: events) :=
  List.forall_mem_cons.mpr ⟨rfl, h⟩

end Quiet

/-- What is quiet, and then a verdict if there is one. -/
theorem Quiet.announces {events : List Event} (h : Quiet events) (verdict : Option Verdict) :
    Announces (events ++ verdict.elim [] fun verdict => [.finished verdict]) verdict := by
  cases verdict with
  | none => exact h.append .nil
  | some verdict => exact ⟨events, h, rfl⟩

/-- **A step of a grid run announces its verdict**, if it comes to one. -/
theorem GridRun.Stepped.announces {r r' : GridRun} {events : List Event} (hr : r.Sound)
    (hv : r.verdict = none) (hs : r.Stepped events r') : Announces events r'.verdict := by
  cases hs with
  | exhausted => exact ⟨[], .nil, rfl⟩
  | rejected => exact ⟨_, .executing _ .nil, rfl⟩
  | ended next done =>
    have heffect := r.rules.effect_of_perform hr.tiled r.context done
    exact ⟨_, .executing _ (.of_occurs heffect.occurs), rfl⟩
  | continued next done =>
    have heffect := r.rules.effect_of_perform hr.tiled r.context done
    rw [resume, hv]
    exact .executing _ (.of_occurs heffect.occurs)

/-- **A step of any run announces its verdict**, if it comes to one: by itself or, for a stage, by
the announcement that is left to the session. -/
theorem ActiveRun.AdvancesTo.announces {run : ActiveRun} {source : Pcg} {t : Tick ActiveRun Pcg}
    (h : run.AdvancesTo source t) :
    Announces (t.events ++ t.verdict.elim [] t.state.announcement) t.verdict := by
  cases h with
  | @grid r r' events source sound ongoing step stepped =>
    have hnone : r'.verdict.elim [] (ActiveRun.grid r').announcement = [] := by
      cases r'.verdict <;> rfl
    dsimp only
    rw [hnone, List.append_nil]
    exact stepped.announces sound ongoing
  | flight f source => exact (Quiet.of_occurs (f.occurs_tick source)).announces _
  | orchard o source => exact (Quiet.of_occurs (o.occurs_tick source)).announces _

/-- Only a maze is celebrated, and its world says so. -/
theorem Template.Fits.celebration_eq {variant : Variant} {template : Template}
    (h : template.Fits variant) (verdict : Verdict) : variant.celebration verdict
      = if template.celebrates = true ∧ verdict = .win then [.celebrating] else [] := by
  cases h with
  | @grid _ world rules ruled =>
    cases variant with
    | maze | ruins | miner =>
      obtain rfl := Option.some.inj ruled
      cases verdict <;> rfl
    | flight | orchard => cases ruled
  | sky | orchard => cases verdict <;> rfl

/-! ## What a run has announced -/

namespace Session

/-- **What has been announced since a launch**: nothing while the run is under way, and then its
verdict, once, with the celebration of a maze that is won, and nothing after it. -/
inductive Announced (told : List Event) (s : Session) : Prop where
  | under_way (running : s.state = .running) (quiet : Quiet told)
  | concluded {verdict : Verdict} {earlier : List Event} (not_running : s.state ≠ .running)
      (verdict_eq : s.verdict = some verdict) (quiet : Quiet earlier)
      (told_eq : told = earlier ++ .finished verdict :: s.variant.celebration verdict)

namespace Announced

variable {s s' : Session} {told : List Event}

/-- Where state, verdict and variant stay and nothing is raised, nothing is announced. -/
theorem of_same (h : Announced told s) (hstate : s'.state = s.state)
    (hverdict : s'.verdict = s.verdict) (hvariant : s'.variant = s.variant)
    (hraised : s.raised s' = []) : Announced (told ++ s.raised s') s' := by
  rw [hraised, List.append_nil]
  cases h with
  | under_way running quiet => exact .under_way (hstate.trans running) quiet
  | concluded not_running verdict_eq quiet told_eq =>
    refine .concluded ?_ (hverdict.trans verdict_eq) quiet ?_
    · rwa [hstate]
    · rwa [hvariant]

/-- While a run is under way nothing has been announced. -/
theorem quiet (h : Announced told s) (hs : s.state = .running) : Quiet told := by
  cases h with
  | under_way running quiet => exact quiet
  | concluded not_running => exact absurd hs not_running

/-- **Every passage within the run announces what it should.** -/
theorem goesOn (h : Announced told s) (hs : s.Consistent) (hon : s.GoesOn s') :
    Announced (told ++ s.raised s') s' := by
  have hnot := hon.not_idle
  have hnot' := hon.not_idle'
  cases hon.passes with
  | still same =>
    exact h.of_same same.state_eq same.verdict_eq same.variant_eq same.raised_eq
  | launched idle => exact absurd idle hnot
  | returned => exact absurd rfl hnot'
  | @advanced run t pacer running current tick ongoing =>
    obtain ⟨hfits, hnone⟩ := hs.under_way running current
    have htick := (hfits.advancesTo hnone tick).announces
    rw [ongoing] at htick
    refine .under_way running ((h.quiet running).append ?_)
    rw [@raised_of_events s _ t.events rfl]
    exact fun event hmem => htick event (List.mem_append_left _ hmem)
  | @concluded run t verdict pacer running current tick ended =>
    obtain ⟨hfits, hnone⟩ := hs.under_way running current
    have htick := (hfits.advancesTo hnone tick).announces
    rw [ended] at htick
    obtain ⟨earlier, hquiet, htold⟩ := htick
    refine .concluded (Play.state_conclude _ _ _ _).2 (Play.verdict_conclude _ _ _ _)
      ((h.quiet running).append hquiet) ?_
    rw [raised_of_concluded rfl, ← List.append_assoc t.events, List.append_assoc told]
    rw [Option.elim_some] at htold
    rw [htold, hs.world.celebration_eq, List.append_assoc earlier]
    rfl
  | declared celebrating =>
    cases h with
    | under_way running =>
      rw [celebrating] at running
      cases running
    | concluded not_running verdict_eq quiet told_eq =>
      rw [hon.passes.raised_eq_nil not_running, List.append_nil]
      refine .concluded ?_ ((Play.verdict_enterWin _).trans verdict_eq) quiet told_eq
      rw [state, Play.state_enterWin]
      intro heq
      cases heq

/-- So does the whole of the run. -/
theorem along (h : Announced told s) (hs : s.Consistent) {path : List Session}
    (hpath : (s :: path).IsChain GoesOn) :
    Announced (told ++ s.emitted path) (path.getLastD s) := by
  induction path generalizing told s with
  | nil =>
    rw [emitted, List.append_nil]
    exact h
  | cons m path ih =>
    obtain ⟨hm, hpath⟩ := List.isChain_cons_cons.mp hpath
    rw [emitted, ← List.append_assoc, List.getLastD_cons]
    exact ih (h.goesOn hs hm) (hs.of_passes hm.passes) hpath

end Announced

/-- A run that is no longer under way does not come back. -/
theorem GoesOn.not_running {s s' : Session} (h : s.GoesOn s') (hs : s.state ≠ .running) :
    s'.state ≠ .running := by
  have hnot := h.not_idle
  rcases h.passes.leadsTo with heq | hleads
  · rwa [heq]
  · generalize s.state = state, s'.state = state' at hs hnot hleads
    cases hleads with
    | launch => exact absurd rfl hnot
    | celebrate | win | fail => exact absurd rfl hs
    | declare | reset => nofun

/-- **Every run announces its verdict once.**  Whatever the variant and the settings, and whatever
has happened before: a run that is taken raises nothing by that.  Whatever happens then without a
reset or a load, at every moment, those between the steps of one feeding included, what has been
emitted announces nothing while the run is under way; and once it is not, it announces the verdict
that the session has, once, and after that there is only the celebration of a maze that is won.
From there on nothing is emitted.  What the buffer holds was there before or has been emitted. -/
theorem verdict_announced_once (variant : Variant) (settings : Settings) (seed : Seed)
    (before : List Operation) {after : List Operation}
    (hafter : ∀ op ∈ after, op.returns = false) :
    ∃ s m, create variant settings seed = .ok s ∧ s.history before = .ok m ∧
      (m.run.1 = true → m.raised m.run.2 = [] ∧
        ∃ path, m.run.2.chronicle after = .ok path ∧
          m.run.2.history after = .ok (path.getLastD m.run.2) ∧
          (∀ n, ((path.take n).getLastD m.run.2).state ≠ .idle ∧
            Announced (m.run.2.emitted (path.take n)) ((path.take n).getLastD m.run.2) ∧
            ((path.take n).getLastD m.run.2).play.events
              <:+ m.play.events ++ m.run.2.emitted (path.take n)) ∧
          (m.run.2 :: path).IsChain fun a b => a.state ≠ .running →
            b.state ≠ .running ∧ a.raised b = []) := by
  obtain ⟨s, hcreate, -, -, hnew⟩ := exists_create variant settings seed
  obtain ⟨_, -, -, hhistory⟩ := hnew.exists_chronicle before
  generalize List.getLastD _ _ = m at hhistory
  refine ⟨s, m, hcreate, hhistory, fun htaken => ?_⟩
  have hlaunched := run_of_taken htaken
  have hevents : m.run.2.play.events = m.play.events := by rw [hlaunched]; rfl
  have hrunning : m.run.2.state = .running := by rw [hlaunched]; rfl
  have hnot : m.run.2.state ≠ .idle := by rw [hrunning]; nofun
  have hconsistent := (hnew.of_history hhistory).of_passes m.passes_run
  obtain ⟨path, hpath, -, hlast⟩ := hconsistent.exists_chronicle after
  have hchain := hconsistent.goesOn_of_chronicle hnot hafter hpath
  refine ⟨raised_of_events (hevents.trans (List.append_nil _).symm), path, hpath, hlast, ?_, ?_⟩
  · intro n
    have htake : (m.run.2 :: path.take n).IsChain GoesOn := hchain.take (n + 1)
    refine ⟨(hconsistent.of_goesOn hnot htake _ List.getLastD_mem_cons).2.1, ?_, ?_⟩
    · exact (Announced.under_way hrunning .nil).along hconsistent htake
    · rw [← hevents]
      exact suffix_emitted (htake.imp fun _ _ hon => hon.passes)
  · exact hchain.imp fun a b hon hover => ⟨hon.not_running hover, hon.passes.raised_eq_nil hover⟩

/-- The first level, won by four moves in one feeding: the win is announced, and celebrated. -/
theorem verdict_announced_once_first : (∀ op ∈ [Operation.update 0.1], op.returns = false) ∧
    ∃ s m path earlier, create (.maze "lvl1") .undelayed ⟨7⟩ = .ok s ∧
      s.history (List.replicate 4 (.append "b1")) = .ok m ∧
      m.run.2.chronicle [.update 0.1] = .ok path ∧ Quiet earlier ∧
      m.run.2.emitted path = earlier ++ [.finished .win, .celebrating] := by
  have hafter : ∀ op ∈ [Operation.update 0.1], op.returns = false := by decide
  obtain ⟨s, m, hcreate, hhistory, hruns⟩ := verdict_announced_once (.maze "lvl1") .undelayed ⟨7⟩
    (List.replicate 4 (.append "b1")) hafter
  have hready : (create (.maze "lvl1") .undelayed ⟨7⟩).map (fun s =>
      (s.history (List.replicate 4 (.append "b1"))).map (·.run.1)) = .ok (.ok true) := by
    decide +kernel
  have hend : (create (.maze "lvl1") .undelayed ⟨7⟩).map (fun s =>
      (s.history (List.replicate 4 (.append "b1") ++ [.run, .update 0.1])).map fun q =>
        (q.state, q.verdict, q.variant)) = .ok (.ok (.win, some .win, .maze "lvl1")) := by
    decide +kernel
  rw [hcreate] at hready hend
  obtain ⟨m', hm', htaken⟩ := map_eq_ok.mp (Except.ok.inj hready)
  obtain ⟨q, hq, hwin⟩ := map_eq_ok.mp (Except.ok.inj hend)
  obtain rfl := Except.ok.inj (hhistory.symm.trans hm')
  obtain ⟨-, path, hpath, hlast, hmoments, -⟩ := hruns htaken
  rw [history_append hhistory, history_cons rfl] at hq
  obtain rfl := Except.ok.inj (hlast.symm.trans hq)
  obtain ⟨-, hannounced, -⟩ := hmoments path.length
  rw [List.take_length] at hannounced
  obtain ⟨hstate, hwin⟩ := Prod.mk.inj hwin
  obtain ⟨hverdict, hvariant⟩ := Prod.mk.inj hwin
  cases hannounced with
  | under_way running =>
    rw [hstate] at running
    cases running
  | concluded _ verdict_eq quiet told_eq =>
    obtain rfl := Option.some.inj (verdict_eq.symm.trans hverdict)
    rw [hvariant] at told_eq
    exact ⟨hafter, s, m, path, _, hcreate, hhistory, hpath, quiet, told_eq⟩

end Session

end BlockCoding
