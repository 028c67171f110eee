-- SUMMARY: Refused commands can be left out of a construction.
import IrqSynth.Proofs.Elaboration

/-!
# Refusals

A refused command leaves no trace: the rest of a construction goes on as if it had never been tried.
This is about the commands in place, which keep what they have done when they are refused.

Main statement: `refused_commands_leave_no_trace`.
-/
namespace IrqSynth

/-! ## Scripts with gaps -/

/-- The entries of a list whose positions are kept. -/
def kept {α : Type} (keep : Nat → Bool) : List α → List α
  | [] => []
  | a :: rest => (if keep 0 then [a] else []) ++ kept (fun i => keep (i + 1)) rest

/-! ## Reasons -/

/-- The reasons that each command may be refused for. -/
def Command.mayBeRefused : Command → ElabError → Bool
  | .attach _ _, .alreadyFinalized => true
  | .attach _ _, .duplicateSource _ => true
  | .attach _ _, .tooManySources _ => true
  | .attach _ _, .nameCollision _ => true
  | .finalize _, .alreadyFinalized => true
  | .finalize _, .nameCollision _ => true
  | .share _, .noControllers => true
  | .bank _, .notFinalized => true
  | _, _ => false

namespace Controller

variable {c : Controller} {o : Ownership} {s : Source} {e : ElabError} {base : SignalId}

theorem attach_error (h : c.attach o s = .error e) :
    c.objection? o s = some e ∨ e = .duplicateSource s.id := by
  unfold attach at h
  split at h
  · rename_i hobjection
    exact .inl (hobjection.trans (congrArg some (Except.error.inj h)))
  · split at h
    · cases h
    · exact .inr (Except.error.inj h).symm

theorem mayBeRefused_of_objection? (m j : Nat) (h : c.objection? o s = some e) :
    (Command.attach m j).mayBeRefused e := by
  unfold objection? at h
  split at h
  · cases h
    rfl
  · split at h
    · cases h
      rfl
    · split at h
      · cases h
        rfl
      · split at h
        · obtain ⟨-, rfl⟩ : _ ∧ ElabError.nameCollision _ = e := by simpa using h
          rfl
        · cases h

theorem finalize_error (h : c.finalize base = .error e) :
    c.isFinalized ∧ e = .alreadyFinalized ∨
      c.isFinalized = false ∧ ∃ name, e = .nameCollision name := by
  unfold finalize at h
  split at h
  · rename_i hfinal
    exact .inl ⟨hfinal, (Except.error.inj h).symm⟩
  · rename_i hopen
    split at h
    · exact .inr ⟨by simpa using hopen, _, (Except.error.inj h).symm⟩
    · cases h

end Controller

namespace Design

variable {d : Design} {command : Command} {e : ElabError} {m : Nat}

theorem refused_finalize (h : (d.perform (.finalize m)).1 = .refused e) :
    ∃ c, d.controllers[m]? = some c ∧ (c.isFinalized ∧ e = .alreadyFinalized ∨
      c.isFinalized = false ∧ ∃ name, e = .nameCollision name) := by
  simp only [perform, finalize] at h
  split at h
  · cases h
  · rename_i c hc
    split at h
    · rename_i e' hfinalize
      cases h
      exact ⟨c, hc, Controller.finalize_error hfinalize⟩
    · cases h

theorem mayBeRefused_of_attach {j : Nat} (h : (d.perform (.attach m j)).1 = .refused e) :
    (Command.attach m j).mayBeRefused e := by
  simp only [perform, attach] at h
  split at h
  · split at h
    · rename_i hattach
      cases h
      rcases Controller.attach_error hattach with hobjection | rfl
      · exact Controller.mayBeRefused_of_objection? m j hobjection
      · rfl
    · cases h
  · cases h

theorem mayBeRefused_of_share {ms : List Nat} (h : (d.perform (.share ms)).1 = .refused e) :
    (Command.share ms).mayBeRefused e := by
  simp only [perform, share] at h
  split at h
  · cases h
  · rename_i cs _
    split at h
    · rename_i hjoin
      cases h
      cases cs <;> cases hjoin
      rfl
    · cases h

theorem mayBeRefused_of_bank (h : (d.perform (.bank m)).1 = .refused e) :
    (Command.bank m).mayBeRefused e := by
  simp only [perform, bank, Bank.create, Controller.requireLayout] at h
  split at h
  · cases h
  · rename_i c _
    cases hl : c.layout <;> simp only [hl] at h <;> cases h
    rfl

theorem mayBeRefused_of_refused (h : (d.perform command).1 = .refused e) :
    command.mayBeRefused e := by
  cases command with
  | signal name => cases h
  | source kind name description => cases h
  | register kind name description fields => cases h
  | controller => cases h
  | handle j description =>
    simp only [perform, addHandle] at h
    split at h <;> cases h
  | attach m j => exact mayBeRefused_of_attach h
  | finalize m =>
    obtain ⟨c, -, ⟨-, rfl⟩ | ⟨-, name, rfl⟩⟩ := refused_finalize h
    · rfl
    · rfl
  | share ms => exact mayBeRefused_of_share h
  | bank m => exact mayBeRefused_of_bank h

/-! ## Runs -/

/-- A script without some of its refused commands gives the other answers and the same design. -/
theorem run_kept (d : Design) (commands : List Command) (keep : Nat → Bool)
    (h : ∀ i answer, (d.run commands).1[i]? = some answer → keep i = false →
      ∃ e, answer = .refused e) :
    d.run (kept keep commands) = (kept keep (d.run commands).1, (d.run commands).2) := by
  induction commands generalizing d keep with
  | nil => rfl
  | cons command rest ih =>
    have hrest := ih (d.perform command).2 (fun i => keep (i + 1))
      fun i answer hanswer => h (i + 1) answer hanswer
    cases hkeep : keep 0 with
    | true => simp [kept, hkeep, run, hrest]
    | false =>
      obtain ⟨e, he⟩ := h 0 (d.perform command).1 rfl hkeep
      rw [perform_of_refused he] at hrest
      simp [kept, hkeep, run, hrest, perform_of_refused he]

end Design

/-- Whichever refused commands are left out of a script, the other answers and the final design stay
the same. A refused command has its own reasons, and its program stops with the design as it was, so
that no object changes and no id is taken. A controller that was not finalized for a collision of
names is still open, and everything goes on as if that had never been tried. -/
theorem refused_commands_leave_no_trace :
    (∀ (d : Design) (commands : List Command),
      Elaboration.run d commands = d.run commands) ∧
      (∀ (d : Design) (commands : List Command) (keep : Nat → Bool),
        (∀ i answer, (Elaboration.run d commands).1[i]? = some answer → keep i = false →
          ∃ e, answer = .refused e) →
        Elaboration.run d (kept keep commands) =
          (kept keep (Elaboration.run d commands).1, (Elaboration.run d commands).2)) ∧
      (∀ (d : Design) (command : Command) (e : ElabError),
        (Elaboration.step d command).1 = .refused e →
          command.mayBeRefused e ∧
            (Elaboration.perform command).on d = (.error (.refused e), d)) ∧
      ∀ (d : Design) (m : Nat) (name : String),
        (Elaboration.step d (.finalize m)).1 = .refused (.nameCollision name) →
          (∃ c, (Elaboration.step d (.finalize m)).2.controllers[m]? = some c ∧
            c.isFinalized = false) ∧
          ∀ rest, Elaboration.run d (.finalize m :: rest) =
            (.refused (.nameCollision name) :: (Elaboration.run d rest).1,
              (Elaboration.run d rest).2) := by
  refine ⟨Elaboration.run_eq, ?_, ?_, ?_⟩
  · intro d commands keep h
    rw [Elaboration.run_eq] at h ⊢
    rw [Elaboration.run_eq]
    exact Design.run_kept d commands keep h
  · intro d command e h
    refine ⟨?_, Elaboration.on_of_refused h⟩
    rw [Elaboration.step_eq] at h
    exact Design.mayBeRefused_of_refused h
  · intro d m name h
    rw [Elaboration.step_eq] at h ⊢
    have hsame := Design.perform_of_refused h
    obtain ⟨c, hc, ⟨-, hreason⟩ | ⟨hopen, -⟩⟩ := Design.refused_finalize h
    · cases hreason
    · refine ⟨⟨c, by rw [hsame, hc], hopen⟩, ?_⟩
      intro rest
      simp only [Elaboration.run_eq, Design.run, h, hsame]

/-- A collision with a fallback name is cured by a source created in between. Without the commands
that were refused before, finalizing gives the same layout. -/
theorem cured_collision_leaves_no_trace :
    let commands : List Command :=
      [.controller, .source .pulse (some "event1") none, .source .level (some "slot") none,
        .source .process none none, .attach 0 0, .attach 0 2, .attach 0 0, .finalize 0, .share [],
        .bank 0, .attach 0 1, .finalize 0]
    let keep : Nat → Bool := fun i => i ∉ [6, 7, 9]
    let answers := (Elaboration.run .empty commands).1
    let tried := (Elaboration.run .empty (commands.take 7)).2
    answers[6]? = some (.refused (.duplicateSource 0)) ∧
      answers[7]? = some (.refused (.nameCollision "event1")) ∧
      answers[9]? = some (.refused .notFinalized) ∧
      (Elaboration.run .empty (kept keep commands)).1 = kept keep answers ∧
      ((kept keep answers)[8]?.any fun
        | .finalized l => l.names = ["event1", "slot", "event2"]
        | _ => false) ∧
      Command.mayBeRefused (.bank 0) .notFinalized ∧
      ∃ c, (Elaboration.step tried (.finalize 0)).2.controllers[0]? = some c ∧
        c.isFinalized = false := by
  intro commands keep answers tried
  have hduplicate : answers[6]? = some (.refused (.duplicateSource 0)) := by decide +kernel
  have hcollision : answers[7]? = some (.refused (.nameCollision "event1")) := by decide +kernel
  have hbank : answers[9]? = some (.refused .notFinalized) := by decide +kernel
  have hkeep : ∀ i answer, answers[i]? = some answer → keep i = false →
      ∃ e, answer = .refused e := by
    intro i answer hanswer hi
    have hdropped : i = 6 ∨ i = 7 ∨ i = 9 := by
      simp only [keep, decide_eq_false_iff_not, List.mem_cons, List.not_mem_nil, or_false,
        Decidable.not_not] at hi
      exact hi
    rcases hdropped with rfl | rfl | rfl
    · exact ⟨_, Option.some.inj (hanswer.symm.trans hduplicate)⟩
    · exact ⟨_, Option.some.inj (hanswer.symm.trans hcollision)⟩
    · exact ⟨_, Option.some.inj (hanswer.symm.trans hbank)⟩
  obtain ⟨-, hscript, hrefused, hopen⟩ := refused_commands_leave_no_trace
  have hreason := (hrefused tried (.bank 0) .notFinalized (by decide +kernel)).1
  obtain ⟨⟨c, hc, hcopen⟩, -⟩ := hopen tried 0 "event1" (by decide +kernel)
  have hkept : (Elaboration.run .empty (kept keep commands)).1 = kept keep answers := by
    rw [hscript .empty commands keep hkeep]
  exact ⟨hduplicate, hcollision, hbank, hkept, by decide +kernel, hreason, c, hc, hcopen⟩

end IrqSynth
