-- SUMMARY: No command of a construction faults, and each equals its unchecked form.
import IrqSynth.Checked
import IrqSynth.Proofs.Exclusive

/-!
# Construction without faults

No command faults on a design that was built by commands: new registers are as wide as machine words
can say, and finalizing finds a bit and a write line for each of its sources.

Main statements: `synthesize_eq`, `perform_eq` and `run_eq`.
-/
namespace IrqSynth

theorem Register.getElem?_bits {r : Register} {i : Nat} (hi : i < r.width) :
    r.bits[i]? = some (r.bit i) := by
  rw [bits, List.getElem?_map, List.getElem?_range hi, Option.map_some]

theorem Register.getElem?_writtenBits {r : Register} {i : Nat} (hi : i < r.width) :
    r.writtenBits[i]? = some (r.written i) := by
  rw [writtenBits, List.getElem?_map, List.getElem?_range hi, Option.map_some]

namespace Checked

variable {sources : List Source} {fields : List Field} {irq : Signal} {base : SignalId} {role : Role}
  {d : Design} {command : Command} {commands : List Command}

/-! ## Registers -/

theorem width_eq (h : ∀ f ∈ fields, f.offset + 1 < limit) :
    width fields = some (fields.foldl (fun w f => max w (f.offset + 1)) 0) := by
  have hstep (w : Nat) : fields.foldlM (fun w f => return max w (← add f.offset 1)) w =
      some (fields.foldl (fun w f => max w (f.offset + 1)) w) := by
    induction fields generalizing w with
    | nil => rfl
    | cons f rest ih =>
      have hf : add f.offset 1 = some (f.offset + 1) := if_pos (h f List.mem_cons_self)
      rw [List.foldlM_cons, hf]
      exact ih (fun g hg => h g (List.mem_cons_of_mem f hg)) (max w (f.offset + 1))
  exact hstep 0

example : width [⟨"top", 2 ^ 64 - 1, ""⟩] = none := by
  decide

theorem register_eq {name description : String} {kind : RegisterKind}
    (h : ∀ f ∈ fields, f.offset + 1 < limit) :
    register name kind description fields base = some ⟨name, kind, description, fields, base⟩ := by
  rw [register, width_eq h]
  rfl

/-- Every source has a name, so that no field is missing. -/
theorem synthesizeRegister_eq (hroom : sources.length ≤ Controller.maxSources) :
    synthesizeRegister role sources (sources.mapIdx fun i s => s.fieldName i) base =
      some (role.synthesize sources base) := by
  have hfields : ((sources.zip (sources.mapIdx fun i s => s.fieldName i)).mapIdx
      fun i r => (⟨r.2, i, role.fieldText r.1 r.2⟩ : Field)) =
      (role.synthesize sources base).fields := by
    apply List.ext_getElem?
    intro i
    simp only [Role.synthesize, List.getElem?_mapIdx, List.zip, List.getElem?_zipWith]
    cases sources[i]? <;> rfl
  rw [synthesizeRegister, hfields]
  apply register_eq
  intro f hf
  obtain ⟨i, hi, rfl⟩ := List.mem_mapIdx.1 hf
  have hlimit : Controller.maxSources + 1 < limit := by decide
  exact Nat.lt_of_le_of_lt (Nat.succ_le_of_lt (Nat.lt_of_lt_of_le hi hroom)) (Nat.lt_of_succ_lt hlimit)

/-! ## Layouts -/

theorem wire_eq {status pending enable : Register} {i : Nat} (s : Source) (hs : i < status.width)
    (hp : i < pending.width) (he : i < enable.width) :
    wire status pending enable i s = some (Layout.wire status pending i s,
      .and (.signal (pending.bit i).id) (.signal (enable.bit i).id)) := by
  rw [wire, Register.getElem?_bits hs, Register.getElem?_bits hp, Register.getElem?_bits he,
    Register.getElem?_writtenBits hp]
  rfl

theorem mapM_eq_some {α β : Type} {f : α → Option β} {g : α → β} {xs : List α}
    (h : ∀ x ∈ xs, f x = some (g x)) : xs.mapM f = some (xs.map g) := by
  induction xs with
  | nil => rfl
  | cons x rest ih =>
    rw [List.mapM_cons, h x List.mem_cons_self, ih fun y hy => h y (List.mem_cons_of_mem x hy)]
    rfl

/-- The registers have a bit and a write line for each source. -/
theorem synthesize_eq (hroom : sources.length ≤ Controller.maxSources) :
    synthesize sources (sources.mapIdx fun i s => s.fieldName i) irq base =
      some (Layout.synthesize sources irq base) := by
  have hwires (status pending enable : Register) (hs : status.width = sources.length)
      (hp : pending.width = sources.length) (he : enable.width = sources.length) :
      (sources.zipIdx.mapM fun r => wire status pending enable r.2 r.1) =
        some (sources.zipIdx.map fun r => (Layout.wire status pending r.2 r.1,
          .and (.signal (pending.bit r.2).id) (.signal (enable.bit r.2).id))) := by
    apply mapM_eq_some
    rintro ⟨s, i⟩ hmem
    have hi : i < sources.length := (List.mem_zipIdx' hmem).1
    exact wire_eq s (hs ▸ hi) (hp ▸ hi) (he ▸ hi)
  have hirq (pending enable : Register) : (sources.zipIdx.map fun r =>
      Expr.and (.signal (pending.bit r.2).id) (.signal (enable.bit r.2).id)) =
      (List.range sources.length).map fun i =>
        .and (.signal (pending.bit i).id) (.signal (enable.bit i).id) := by
    apply List.ext_getElem?
    intro i
    simp only [List.getElem?_map, List.getElem?_zipIdx]
    grind
  simp only [synthesize, synthesizeRegister_eq hroom, Option.bind_eq_bind, Option.bind_some]
  rw [hwires _ _ _ (Role.width_synthesize _ _ _) (Role.width_synthesize _ _ _)
    (Role.width_synthesize _ _ _)]
  simp only [Option.bind_some, List.map_map, Option.pure_def, Layout.synthesize, Layout.asserted,
    List.mapIdx_eq_zipIdx_map, ← hirq]
  rfl

/-! ## Designs -/

theorem finalize_eq {c : Controller} (hroom : c.roster.size ≤ Controller.maxSources) :
    finalize c base = some (c.finalize base) := by
  unfold finalize Controller.finalize
  cases c.isFinalized with
  | true => rfl
  | false =>
    cases hrepeat : Roster.firstRepeat? [] c.roster.fieldNames with
    | some name => rfl
    | none =>
      have hlayout : synthesize c.roster.sources c.roster.fieldNames c.irq base =
          some (Layout.synthesize c.roster.sources c.irq base) := synthesize_eq hroom
      rw [hlayout]
      rfl

/-- The fields of the register that a command asks for. -/
def fieldsOf : Command → List Field
  | .register _ _ _ fields => fields
  | _ => []

theorem perform_eq (h : d.Exclusive) (hoffsets : ∀ f ∈ fieldsOf command, f.offset + 1 < limit) :
    perform d command = some (d.perform command) := by
  cases command with
  | register kind name description fields =>
    have hfields : ∀ f ∈ fields, f.offset + 1 < limit := hoffsets
    rw [perform, register_eq hfields]
    rfl
  | finalize m =>
    rw [perform, Design.perform, Design.finalize]
    cases hc : d.controllers[m]? with
    | none => rfl
    | some c =>
      simp only [finalize_eq (h.orderly m c hc).capacity]
      cases c.finalize d.nextSignal with
      | error e => rfl
      | ok finalized => rfl
  | _ => rfl

theorem run_eq (h : d.Exclusive)
    (hoffsets : ∀ command ∈ commands, ∀ f ∈ fieldsOf command, f.offset + 1 < limit) :
    run d commands = some (d.run commands) := by
  induction commands generalizing d with
  | nil => rfl
  | cons command rest ih =>
    have hnext := ih (Design.Effect.exclusive (Design.perform_effect d command) h)
      fun other hother => hoffsets other (List.mem_cons_of_mem command hother)
    rw [run, perform_eq h (hoffsets command List.mem_cons_self)]
    simp only [Option.bind_eq_bind, Option.bind_some]
    rw [hnext]
    rfl

end Checked

end IrqSynth
