-- SUMMARY: What every command in place answers and leaves; whatever stops it leaves no trace.
import IrqSynth.Elaboration
import IrqSynth.Proofs.Construction

/-!
# Elaboration in place

A command in place answers what the command of the design answers and leaves the same design. If it
is stopped, the steps before have changed nothing by then.

Main statements: `on_perform` (all that a command in place does), `unchanged_of_stopped` (whatever
stops a command leaves the design as it was) and `run_eq`.
-/
namespace IrqSynth

/-- An answer as the program of the command gives it. Refusals stop the program. -/
def Answer.outcome : Answer → Except Answer Answer
  | .refused reason => .error (.refused reason)
  | .missing => .error .missing
  | answer => .ok answer

theorem Design.perform_of_missing {d : Design} {command : Command}
    (h : (d.perform command).1 = .missing) : (d.perform command).2 = d := by
  have heffect := perform_effect d command
  rw [h] at heffect
  generalize (d.perform command).2 = after at heffect
  cases heffect
  rfl

namespace Elaboration

open InPlace

variable {d after : Design} {c : Controller} {s : Source} {m j : Nat} {command : Command}

/-! ## Steps -/

theorem on_refuseIf (p : Bool) (reason : ElabError) (d : Design) :
    (refuseIf p reason).on d = (if p then .error (.refused reason) else .ok (), d) := by
  cases p <;> rfl

theorem on_refuseIf_bind {α : Type} (p : Bool) (reason : ElabError) (f : Unit → Program α)
    (d : Design) :
    (refuseIf p reason >>= f).on d = if p then (.error (.refused reason), d) else (f ()).on d := by
  cases p <;> rfl

theorem on_controllerAt (hc : d.controllers[m]? = some c) : (controllerAt m).on d = (.ok c, d) := by
  rw [controllerAt, on_bind_of_ok (on_get d), hc, on_pure]

theorem on_controllerAt_none (hc : d.controllers[m]? = none) :
    (controllerAt m).on d = (.error .missing, d) := by
  rw [controllerAt, on_bind_of_ok (on_get d), hc, on_throw]

theorem on_sourceAt (hs : d.sources[j]? = some s) : (sourceAt j).on d = (.ok s, d) := by
  rw [sourceAt, on_bind_of_ok (on_get d), hs, on_pure]

theorem on_sourceAt_none (hs : d.sources[j]? = none) :
    (sourceAt j).on d = (.error .missing, d) := by
  rw [sourceAt, on_bind_of_ok (on_get d), hs, on_throw]

theorem on_update (f : Controller → Controller) (hc : d.controllers[m]? = some c) :
    (update m f).on d =
      (.ok (), { d with controllers := d.controllers.setIfInBounds m (f c) }) := by
  rw [update, on_bind_of_ok (on_controllerAt hc), on_modify]

/-- Only a free source is taken. -/
theorem on_claim_of_free {id : SourceId} (hfree : d.owned.isTaken id = false) :
    (claim id).on d = (.ok true, { d with owned := ⟨d.owned.taken.insert id⟩ }) := by
  have htake : d.owned.take? id = some ⟨d.owned.taken.insert id⟩ :=
    Ownership.take?_eq_some.2 ⟨hfree, rfl⟩
  rw [claim, on_bind_of_ok (on_get d), htake, on_bind_of_ok (on_set _ d), on_pure]

theorem on_newRegister (role : Role) (sources : List Source) (d : Design) :
    (newRegister role sources).on d = (.ok (role.synthesize sources d.nextSignal),
      { d with
        nextSignal := d.nextSignal + (role.synthesize sources d.nextSignal).signalCount }) :=
  rfl

/-! ## Attaching -/

/-- A source is refused for the objection that the controller has to it. Nothing is taken so far. -/
theorem on_vet (c : Controller) (s : Source) (d : Design) :
    (vet c s).on d =
      ((c.objection? d.owned s).elim (.ok ()) fun reason => .error (.refused reason), d) := by
  simp only [vet, Controller.objection?, on_refuseIf_bind, on_bind_of_ok (on_get d),
    decide_eq_true_eq]
  by_cases hfinal : c.isFinalized
  · rw [if_pos hfinal, if_pos hfinal]
    rfl
  rw [if_neg hfinal, if_neg hfinal]
  by_cases hheld : c.roster.holds s.id || d.owned.isTaken s.id
  · rw [if_pos hheld, if_pos hheld]
    rfl
  rw [if_neg hheld, if_neg hheld]
  by_cases hfull : Controller.maxSources ≤ c.roster.size
  · rw [if_pos hfull, if_pos hfull]
    rfl
  rw [if_neg hfull, if_neg hfull]
  cases s.name with
  | none => rfl
  | some name => cases hname : c.names.contains name <;> simp [on_refuseIf, hname]

/-- Recording the name and entering the source make two changes to one controller. -/
theorem on_record_insert (hc : d.controllers[m]? = some c) (s : Source) :
    (do record m s
        update m fun c => { c with roster := c.roster.insert s } : Program Unit).on d =
      (.ok (), { d with controllers := d.controllers.setIfInBounds m (c.accept s) }) := by
  unfold record Controller.accept
  cases s.name with
  | none => exact on_update _ hc
  | some name =>
    have hrecorded (c' : Controller) : (d.controllers.setIfInBounds m c')[m]? = some c' := by
      rw [getElem?_replace c' hc, if_pos rfl]
    rw [on_bind_of_ok (on_update _ hc), on_update _ (hrecorded _),
      Array.setIfInBounds_setIfInBounds]

/-- A source that meets no objection is free, so taking it succeeds. -/
theorem on_enter (hc : d.controllers[m]? = some c) (hfree : c.objection? d.owned s = none) :
    (enter m s).on d = (.ok (), d.afterAttach m c s) := by
  have hclaim := on_claim_of_free (Controller.objection?_eq_none.1 hfree).2.2.1
  rw [enter, on_bind_of_ok hclaim, on_refuseIf_bind, if_neg (by decide)]
  exact on_record_insert (d := { d with owned := ⟨d.owned.taken.insert s.id⟩ }) hc s

theorem on_attach (d : Design) (m j : Nat) :
    (attach m j).on d = ((d.attach m j).1.outcome, (d.attach m j).2) := by
  cases hc : d.controllers[m]? with
  | none =>
    rw [attach, on_bind_of_error (on_controllerAt_none hc)]
    simp [Design.attach, hc, Answer.outcome]
  | some c =>
    rw [attach, on_bind_of_ok (on_controllerAt hc)]
    cases hs : d.sources[j]? with
    | none =>
      rw [on_bind_of_error (on_sourceAt_none hs)]
      simp [Design.attach, hc, hs, Answer.outcome]
    | some s =>
      rw [on_bind_of_ok (on_sourceAt hs)]
      have hvet := on_vet c s d
      cases hobjection : c.objection? d.owned s with
      | some reason =>
        rw [hobjection] at hvet
        rw [on_bind_of_error hvet]
        simp [Design.attach, Controller.attach, hc, hs, hobjection, Answer.outcome]
      | none =>
        rw [hobjection] at hvet
        have hattach : d.attach m j = (.attached s.ports, d.afterAttach m c s) :=
          Design.perform_attach_eq hc hs hobjection
        rw [on_bind_of_ok hvet, on_bind_of_ok (on_enter hc hobjection), hattach]
        rfl

/-! ## Finalizing -/

theorem on_requireUnique (names : List String) (d : Design) :
    (requireUnique names).on d =
      ((Roster.firstRepeat? [] names).elim (.ok ()) fun name =>
        .error (.refused (.nameCollision name)), d) := by
  unfold requireUnique
  cases Roster.firstRepeat? [] names <;> rfl

/-- The registers get their nets one after the other. -/
theorem on_newLayout (c : Controller) (d : Design) :
    (newLayout c).on d =
      (.ok (Layout.synthesize c.roster.sources c.irq d.nextSignal),
        { d with
          nextSignal := d.nextSignal +
            (Layout.synthesize c.roster.sources c.irq d.nextSignal).signalCount }) := by
  rw [newLayout, on_bind_of_ok (on_newRegister _ _ _), on_bind_of_ok (on_newRegister _ _ _),
    on_bind_of_ok (on_newRegister _ _ _), Layout.signalCount, ← Nat.add_assoc, ← Nat.add_assoc]
  rfl

theorem on_finalize (d : Design) (m : Nat) :
    (finalize m).on d = ((d.finalize m).1.outcome, (d.finalize m).2) := by
  cases hc : d.controllers[m]? with
  | none =>
    rw [finalize, on_bind_of_error (on_controllerAt_none hc)]
    simp [Design.finalize, hc, Answer.outcome]
  | some c =>
    rw [finalize, on_bind_of_ok (on_controllerAt hc), on_refuseIf_bind]
    by_cases hfinal : c.isFinalized
    · simp [Design.finalize, Controller.finalize, hc, hfinal, Answer.outcome]
    rw [if_neg hfinal]
    have hunique := on_requireUnique c.roster.fieldNames d
    cases hrepeat : Roster.firstRepeat? [] c.roster.fieldNames with
    | some name =>
      rw [hrepeat] at hunique
      rw [on_bind_of_error hunique]
      simp [Design.finalize, Controller.finalize, hc, hfinal, hrepeat, Answer.outcome]
    | none =>
      rw [hrepeat] at hunique
      rw [on_bind_of_ok hunique, on_bind_of_ok (on_newLayout c d),
        on_bind_of_ok (on_update _ (by exact hc))]
      simp [Design.finalize, Controller.finalize, hc, hfinal, hrepeat, Answer.outcome]

/-! ## Sharing -/

theorem on_mapM_controllerAt (ms : List Nat) (d : Design) :
    (ms.mapM controllerAt).on d =
      ((ms.mapM fun m => d.controllers[m]?).elim (.error .missing) .ok, d) := by
  induction ms with
  | nil => rfl
  | cons m rest ih =>
    rw [List.mapM_cons, List.mapM_cons]
    cases hc : d.controllers[m]? with
    | none =>
      rw [on_bind_of_error (on_controllerAt_none hc)]
      rfl
    | some c =>
      rw [on_bind_of_ok (on_controllerAt hc), on_bind, ih]
      cases rest.mapM fun m => d.controllers[m]? <;> rfl

theorem on_share (d : Design) (ms : List Nat) :
    (share ms).on d = ((d.share ms).1.outcome, (d.share ms).2) := by
  have hmembers := on_mapM_controllerAt ms d
  unfold Design.share
  cases hcs : ms.mapM fun m => d.controllers[m]? with
  | none =>
    rw [hcs] at hmembers
    rw [share, on_bind_of_error hmembers]
    rfl
  | some cs =>
    rw [hcs] at hmembers
    rw [share, on_bind_of_ok hmembers]
    cases cs <;> rfl

/-! ## Banks -/

theorem on_bank (d : Design) (m : Nat) : (bank m).on d = ((d.bank m).outcome, d) := by
  unfold Design.bank
  cases hc : d.controllers[m]? with
  | none =>
    rw [bank, on_bind_of_error (on_controllerAt_none hc)]
    rfl
  | some c =>
    rw [bank, on_bind_of_ok (on_controllerAt hc)]
    cases hl : c.layout with
    | none => simp [Bank.create, Controller.requireLayout, hl, Answer.outcome, Except.map]
    | some l => simp [Bank.create, Controller.requireLayout, hl, Answer.outcome, Except.map]

/-! ## Commands -/

theorem on_handle (d : Design) (j : Nat) (description : Option String) :
    (handle j description).on d =
      ((d.addHandle j description).1.outcome, (d.addHandle j description).2) := by
  unfold Design.addHandle
  cases hs : d.sources[j]? with
  | none =>
    rw [handle, on_bind_of_error (on_sourceAt_none hs)]
    rfl
  | some s =>
    rw [handle, on_bind_of_ok (on_sourceAt hs)]
    rfl

/-- A command in place answers as the command of the design does, and leaves the same design. -/
theorem on_perform (d : Design) (command : Command) :
    (perform command).on d = ((d.perform command).1.outcome, (d.perform command).2) := by
  cases command with
  | signal name => rfl
  | source kind name description => rfl
  | register kind name description fields => rfl
  | controller => rfl
  | handle j description => exact on_handle d j description
  | attach m j => exact on_attach d m j
  | finalize m => exact on_finalize d m
  | share ms => exact on_share d ms
  | bank m => exact on_bank d m

/-- Whatever stops a command, the steps before it have left the design as it was. -/
theorem unchanged_of_stopped {answer : Answer}
    (h : (perform command).on d = (.error answer, after)) : after = d := by
  rw [on_perform, Prod.mk.injEq] at h
  obtain ⟨houtcome, rfl⟩ := h
  cases hanswer : (d.perform command).1 with
  | refused reason => exact Design.perform_of_refused hanswer
  | missing => exact Design.perform_of_missing hanswer
  | _ =>
    rw [hanswer] at houtcome
    cases houtcome

/-- This is due to the order of the steps: a source taken before it is refused stays taken. -/
example :
    let hasty : Program Unit := do
      let _ ← claim 0
      refuse (.duplicateSource 0)
    (hasty.on Design.empty).2.owned.isTaken 0 := by
  decide +kernel

/-! ## Runs -/

theorem step_eq (d : Design) (command : Command) : step d command = d.perform command := by
  rw [step, on_perform]
  obtain ⟨answer, after⟩ := d.perform command
  cases answer <;> rfl

/-- Only a program that was stopped gives a refusal. -/
theorem on_of_refused {reason : ElabError} (h : (step d command).1 = .refused reason) :
    (perform command).on d = (.error (.refused reason), d) := by
  have hstopped : (perform command).on d = (.error (.refused reason), (d.perform command).2) := by
    rw [step_eq] at h
    rw [on_perform, h]
    rfl
  rw [hstopped, unchanged_of_stopped hstopped]

theorem run_eq (d : Design) (commands : List Command) : run d commands = d.run commands := by
  induction commands generalizing d with
  | nil => rfl
  | cons command rest ih => simp only [run, Design.run, step_eq, ih]

end Elaboration

end IrqSynth
