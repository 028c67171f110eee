-- SUMMARY: A storage register holds the word of the last clock edge with its strobe high.
import IrqSynth.Proofs.GovernedNets
import IrqSynth.Proofs.SettleAnswer
import IrqSynth.Proofs.Wiring
import Mathlib.Data.List.Basic
import Mathlib.Data.List.Induction

/-!
# Storage registers

A storage register simulated without a controller. Its bits hold the word that its write lines carried
at the last clock edge with the strobe high, those that belong to no field included. Between edges, and
at edges without the strobe, nothing that happens to the lines shows in the bits.

Main statements: `read_edge_bit` (one clock edge), `read_run_bit` (a run), `fieldBit?_of_first` (the
bit of a field) and `storage_holds_last_strobed_word`.
-/
namespace IrqSynth

open Assignment
open Stmt (assignmentsAll)

/-! ## Clock edges of a script -/

namespace Simulator

/-- The level that a script leaves on a net that nothing drives. -/
def forced (s : SignalId) (actions : List Action) : Bool :=
  (lastForced? s actions).getD false

/-- For each clock edge of a script, the oldest first, what was done before it. -/
def beforeEdges (actions : List Action) : List (List Action) :=
  (List.range actions.length).filterMap fun n =>
    if actions[n]? = some .tick then some (actions.take n) else none

theorem beforeEdges_concat (actions : List Action) (action : Action) :
    beforeEdges (actions ++ [action]) =
      beforeEdges actions ++ if action = .tick then [actions] else [] := by
  unfold beforeEdges
  rw [List.length_append, List.length_singleton, List.range_succ, List.filterMap_append]
  congr 1
  · refine List.filterMap_congr fun n hn => ?_
    have hn := List.mem_range.1 hn
    rw [List.getElem?_append_left hn, List.take_append_of_le_length (Nat.le_of_lt hn)]
  · by_cases htick : action = .tick <;> simp [htick]

end Simulator

namespace Register

open Simulator

variable {r : Register} {v : Levels} {s : SignalId} {k : Nat} {f : Field} {name : String}
  {action : Action} {actions between : List Action}

/-- What was done before each clock edge that sees the strobe high, the oldest first. -/
def strobedEdges (r : Register) (actions : List Action) : List (List Action) :=
  (beforeEdges actions).filter (forced r.strobe.id)

/-- The level that write line `k` had at the last clock edge that saw the strobe high, and 0 if there
was none. -/
def held (r : Register) (k : Nat) (actions : List Action) : Bool :=
  ((r.strobedEdges actions).getLast?.map (forced (r.written k).id)).getD false

theorem held_concat_of_ne (h : action ≠ .tick) :
    r.held k (actions ++ [action]) = r.held k actions := by
  rw [held, strobedEdges, beforeEdges_concat, if_neg h, List.append_nil]
  rfl

theorem held_concat_tick : r.held k (actions ++ [.tick]) =
    if forced r.strobe.id actions then forced (r.written k).id actions else r.held k actions := by
  rw [held, strobedEdges, beforeEdges_concat, if_pos rfl, List.filter_append, ← strobedEdges]
  by_cases hstrobe : forced r.strobe.id actions
  · simp [hstrobe]
  · simp [hstrobe, held]

/-- Without a clock edge nothing is taken over. -/
theorem held_append (htick : .tick ∉ between) :
    r.held k (actions ++ between) = r.held k actions := by
  induction between using List.reverseRecOn with
  | nil => rw [List.append_nil]
  | append_singleton between action ih =>
    rw [List.mem_append, List.mem_singleton, not_or] at htick
    rw [← List.append_assoc, held_concat_of_ne (Ne.symm htick.2), ih htick.1]

/-! ## One clock edge -/

theorem comb_logic (r : Register) : r.logic.comb = [] := by
  unfold logic
  cases r.kind <;> rfl

/-- A register has no combinational logic, so it rests at any levels. -/
theorem settle_logic (r : Register) (v : Levels) : r.logic.settle v = (v, true) := by
  apply Fragment.settle_of_pass_eq
  rw [Fragment.pass, comb_logic]
  rfl

/-- Nothing but its bits is driven by a register. -/
theorem exists_bit_of_drives (h : r.logic.Drives s) : ∃ k < r.width, s = (r.bit k).id := by
  by_cases hkind : r.kind = .storage
  · rw [logic_of_storage hkind] at h
    rcases Fragment.drives_iff.1 h with ⟨a, ha, -⟩ | ⟨a, ha, rfl⟩
    · cases ha
    · obtain ⟨k, hk, rfl⟩ := mem_capture.1 ha
      exact ⟨k, hk, rfl⟩
  · rw [logic_of_kind_ne hkind] at h
    rcases Fragment.drives_iff.1 h with ⟨a, ha, -⟩ | ⟨a, ha, -⟩ <;> cases ha

theorem not_drives_strobe (r : Register) : ¬r.logic.Drives r.strobe.id := by
  intro h
  obtain ⟨k, hk, heq⟩ := exists_bit_of_drives h
  simp only [strobe, bit] at heq
  lia

theorem not_drives_written (r : Register) (k : Nat) : ¬r.logic.Drives (r.written k).id := by
  intro h
  obtain ⟨j, hj, heq⟩ := exists_bit_of_drives h
  simp only [written, bit] at heq
  lia

/-- At a clock edge a bit takes over its write line if the strobe is high, and else stays. -/
theorem read_edge_bit (hkind : r.kind = .storage) (hk : k < r.width) (v : Levels) :
    (r.logic.edge v).read (r.bit k).id =
      if v.read r.strobe.id then v.read (r.written k).id else v.read (r.bit k).id := by
  rw [Levels.read, Fragment.get?_edge, logic_of_storage hkind, lastActive?_capture v.read hk]
  split <;> rfl

theorem read_tick_bit {sim : Simulator} (hsim : sim.fragment = r.logic) (hkind : r.kind = .storage)
    (hk : k < r.width) :
    sim.tick.read (r.bit k).id =
      if sim.read r.strobe.id then sim.read (r.written k).id else sim.read (r.bit k).id := by
  rw [Simulator.read, levels_tick, hsim, settle_logic, settle_logic, read_edge_bit hkind hk]
  rfl

/-! ## A run -/

/-- After any run that forces no bit, every bit below the width holds what it should. -/
theorem read_run_bit (hkind : r.kind = .storage) (hk : k < r.width)
    (hforced : ∀ b, .set (r.bit k).id b ∉ actions) :
    ((start r.logic).run actions).read (r.bit k).id = r.held k actions := by
  -- on the run from its end: what the last edge sees of the lines was forced on them before it
  induction actions using List.reverseRecOn with
  | nil =>
    have hstart : (start r.logic).levels = .empty := by rw [levels_start, settle_logic]
    change (start r.logic).levels.read (r.bit k).id = false
    rw [hstart, Levels.read_empty]
  | append_singleton actions action ih =>
    have hbefore := ih fun b h => hforced b (List.mem_append_left _ h)
    have hfragment := fragment_run_start r.logic actions
    rw [run_concat]
    cases action with
    | set x b =>
      have hne : x ≠ (r.bit k).id := by
        rintro rfl
        exact hforced b (by simp)
      rw [act, read_set, if_neg hne, hbefore, held_concat_of_ne (by simp)]
    | settle =>
      rw [act, Simulator.read, levels_settle, hfragment, settle_logic, held_concat_of_ne (by simp)]
      exact hbefore
    | tick =>
      rw [act, read_tick_bit hfragment hkind hk, read_run_of_not_drives r.not_drives_strobe,
        read_run_of_not_drives (r.not_drives_written k), ← forced, ← forced, hbefore,
        held_concat_tick]

/-! ## Width and fields -/

theorem width_eq_max (r : Register) : r.width = (r.fields.map (·.offset + 1)).max?.getD 0 := by
  rw [width, ← Nat.zero_max ((r.fields.map (·.offset + 1)).max?.getD 0), ← List.foldl_max,
    List.foldl_map]

theorem offset_lt_width (hf : f ∈ r.fields) : f.offset < r.width :=
  lt_width_iff.2 ⟨f, hf, Nat.le_refl _⟩

/-- No declared field lies outside the register, so a field that is found leads to a bit. -/
theorem fieldBit?_eq_map (r : Register) (name : String) :
    r.fieldBit? name = (r.field? name).map fun f => r.bit f.offset := by
  cases hfield : r.field? name with
  | none =>
    rw [fieldBit?, hfield]
    rfl
  | some f =>
    have hmem : f ∈ r.fields := List.mem_of_find?_eq_some hfield
    rw [fieldBit?, hfield, Option.bind_some, bit?, if_pos (offset_lt_width hmem), Option.map_some]

theorem isSome_fieldBit? (r : Register) (name : String) :
    (r.fieldBit? name).isSome = (r.field? name).isSome := by
  rw [fieldBit?_eq_map, Option.isSome_map]

/-- A field that is the first of its name leads to the bit at its offset. -/
theorem fieldBit?_of_first {before after : List Field} (hfields : r.fields = before ++ f :: after)
    (hfirst : ∀ g ∈ before, g.name ≠ f.name) : r.fieldBit? f.name = some (r.bit f.offset) := by
  rw [fieldBit?_eq_map, field?_of_first hfields hfirst, Option.map_some]

theorem isSome_field? (r : Register) (name : String) :
    (r.field? name).isSome ↔ ∃ f ∈ r.fields, f.name = name := by
  simp [field?]

end Register

open Simulator

/-! ## Main result -/

/-- A register is as wide as its fields require, in whatever order they are declared. After every run
that forces no bit of a storage register, each of its bits has the level that its write line had at the
last clock edge with the strobe high, and 0 if there was none. What happens to the lines up to the next
clock edge leaves the bits as they are, and so does that edge if the strobe is low by then. The field
names of a register of any kind lead to the bit of the first field of that name, all others to none. -/
theorem storage_holds_last_strobed_word (r : Register) :
    r.width = (r.fields.map (·.offset + 1)).max?.getD 0 ∧
      (r.kind = .storage → ∀ actions : List Simulator.Action,
        (∀ k < r.width, ∀ b, .set (r.bit k).id b ∉ actions) →
          let sim := (start r.logic).run actions
          (∀ x, (∀ k < r.width, x ≠ (r.bit k).id) → sim.read x = forced x actions) ∧
          (∀ k < r.width, sim.read (r.bit k).id = r.held k actions) ∧
          ∀ between : List Simulator.Action, .tick ∉ between →
            (∀ k < r.width, ∀ b, .set (r.bit k).id b ∉ between) →
              ∀ k < r.width, (sim.run between).read (r.bit k).id = sim.read (r.bit k).id ∧
                ((sim.run between).read r.strobe.id = false →
                  (sim.run between).tick.read (r.bit k).id = sim.read (r.bit k).id)) ∧
      (∀ name, (r.fieldBit? name).isSome = (r.field? name).isSome) ∧
      (∀ name, (r.field? name).isSome ↔ ∃ f ∈ r.fields, f.name = name) ∧
      ∀ before f after, r.fields = before ++ f :: after → (∀ g ∈ before, g.name ≠ f.name) →
        f.offset < r.width ∧ r.field? f.name = some f ∧
          r.fieldBit? f.name = some (r.bit f.offset) := by
  refine ⟨r.width_eq_max, ?_, r.isSome_fieldBit?, r.isSome_field?, ?_⟩
  · intro hkind actions hforced sim
    have hbit {k : Nat} (hk : k < r.width) : sim.read (r.bit k).id = r.held k actions :=
      Register.read_run_bit hkind hk (hforced k hk)
    refine ⟨?_, fun k hk => hbit hk, ?_⟩
    · intro x hx
      refine read_run_of_not_drives (fun hdrives => ?_) actions
      obtain ⟨k, hk, rfl⟩ := Register.exists_bit_of_drives hdrives
      exact hx k hk rfl
    · intro between htick hbetween k hk
      have hrun : sim.run between = (start r.logic).run (actions ++ between) :=
        (run_append ..).symm
      have hkept : (sim.run between).read (r.bit k).id = sim.read (r.bit k).id := by
        rw [hbit hk, hrun, ← Register.held_append htick]
        refine Register.read_run_bit hkind hk fun b hset => ?_
        exact (List.mem_append.1 hset).elim (hforced k hk b) (hbetween k hk b)
      refine ⟨hkept, fun hstrobe => ?_⟩
      have hfragment : (sim.run between).fragment = r.logic := by
        rw [hrun, fragment_run_start]
      rw [Register.read_tick_bit hfragment hkind hk, hstrobe, if_neg Bool.false_ne_true, hkept]
  · intro before f after hfields hfirst
    have hmem : f ∈ r.fields := hfields ▸ List.mem_append_right before List.mem_cons_self
    exact ⟨Register.offset_lt_width hmem, Register.field?_of_first hfields hfirst,
      Register.fieldBit?_of_first hfields hfirst⟩

/-- A bit between two fields is written like theirs. It is not disturbed by a strobe that is withdrawn
before the next edge, nor by an edge without one. The name `hi` is taken by the first of two fields. -/
theorem uncovered_bit_holds :
    let r : Register :=
      ⟨"ctrl", .storage, "", [⟨"hi", 3, ""⟩, ⟨"lo", 0, ""⟩, ⟨"hi", 1, ""⟩], 5⟩
    let written : List Simulator.Action :=
      [.set (r.written 2).id true, .set r.strobe.id true, .tick, .set r.strobe.id false]
    let glitch : List Simulator.Action :=
      [.set (r.written 2).id false, .set r.strobe.id true, .settle, .set r.strobe.id false]
    let sim := (start r.logic).run written
    r.width = 4 ∧ sim.read (r.bit 2).id = true ∧ (sim.run glitch).tick.read (r.bit 2).id = true ∧
      r.fieldBit? "hi" = some (r.bit 3) := by
  intro r written glitch sim
  obtain ⟨hwidth, hruns, -, -, hfields⟩ := storage_holds_last_strobed_word r
  have hfour : r.width = 4 := hwidth.trans (by decide +kernel)
  rw [hfour] at hruns
  obtain ⟨-, hheld, hbetween⟩ := hruns rfl written (by decide +kernel)
  have htrue : sim.read (r.bit 2).id = true := (hheld 2 (by decide)).trans (by decide +kernel)
  obtain ⟨-, hstays⟩ := hbetween glitch (by decide) (by decide +kernel) 2 (by decide)
  refine ⟨hfour, htrue, (hstays (by decide +kernel)).trans htrue, ?_⟩
  exact (hfields [] ⟨"hi", 3, ""⟩ _ rfl (by simp)).2.2

end IrqSynth
