-- SUMMARY: Fragments of combinational and clocked statements, joined by appending.
import IrqSynth.Logic.Stmt
import Std.Data.ExtTreeSet

/-!
# Fragments

The unit of emitted hardware: combinational statements, which hold at every moment, and clocked
statements, which act at a clock edge. Order matters within each list and fragments join by
appending both.
-/
namespace IrqSynth

/-- Combinational and clocked logic. -/
@[ext] structure Fragment where
  comb : List Stmt
  sync : List Stmt
  deriving DecidableEq

namespace Fragment

/-- No logic at all. -/
def empty : Fragment :=
  ⟨[], []⟩

/-- The logic of `f` followed by that of `g`. -/
def append (f g : Fragment) : Fragment :=
  ⟨f.comb ++ g.comb, f.sync ++ g.sync⟩

instance : Append Fragment :=
  ⟨append⟩

/-- All parts one after the other. -/
def concat (parts : List Fragment) : Fragment :=
  ⟨parts.flatMap comb, parts.flatMap sync⟩

def isEmpty (f : Fragment) : Bool :=
  f.comb.isEmpty && f.sync.isEmpty

/-- The nets that the combinational statements drive. -/
def combTargets (f : Fragment) : Std.ExtTreeSet SignalId :=
  .ofList (Stmt.targetsAll f.comb)

/-- The nets that the clocked statements drive. -/
def syncTargets (f : Fragment) : Std.ExtTreeSet SignalId :=
  .ofList (Stmt.targetsAll f.sync)

/-- The fragment drives a net, combinationally or at clock edges. -/
def Drives (f : Fragment) (s : SignalId) : Prop :=
  s ∈ f.combTargets ∨ s ∈ f.syncTargets

/-- The fragment drives a net or reads it somewhere, be it in a condition that guards nothing. -/
def Mentions (f : Fragment) (s : SignalId) : Prop :=
  f.Drives s ∨ s ∈ Stmt.readsAll f.comb ∨ s ∈ Stmt.readsAll f.sync

/-- The same logic over renamed nets. -/
def rename (g : SignalId → SignalId) (f : Fragment) : Fragment :=
  ⟨Stmt.renameAll g f.comb, Stmt.renameAll g f.sync⟩

-- ---------------------------------------------------------------------------
-- Laws of joining
-- ---------------------------------------------------------------------------

@[simp] theorem comb_append (f g : Fragment) : (f ++ g).comb = f.comb ++ g.comb :=
  rfl

@[simp] theorem sync_append (f g : Fragment) : (f ++ g).sync = f.sync ++ g.sync :=
  rfl

@[simp] theorem comb_concat (parts : List Fragment) : (concat parts).comb = parts.flatMap comb :=
  rfl

@[simp] theorem sync_concat (parts : List Fragment) : (concat parts).sync = parts.flatMap sync :=
  rfl

theorem concat_pair (f g : Fragment) : concat [f, g] = f ++ g := by
  apply Fragment.ext <;> simp

/-- Joining all parts is appending them one after the other. -/
theorem foldl_append (parts : List Fragment) (f : Fragment) :
    parts.foldl (· ++ ·) f = f ++ concat parts := by
  induction parts generalizing f with
  | nil => apply Fragment.ext <;> simp
  | cons p ps ih =>
    rw [List.foldl_cons, ih]
    apply Fragment.ext <;> simp

theorem rename_append (g : SignalId → SignalId) (e f : Fragment) :
    (e ++ f).rename g = e.rename g ++ f.rename g :=
  Fragment.ext (Stmt.renameAll_append g e.comb f.comb) (Stmt.renameAll_append g e.sync f.sync)

theorem rename_concat (g : SignalId → SignalId) (parts : List Fragment) :
    (concat parts).rename g = concat (parts.map (rename g)) := by
  apply Fragment.ext
  · simp [rename, Stmt.renameAll_flatMap, List.flatMap_map]
  · simp [rename, Stmt.renameAll_flatMap, List.flatMap_map]

@[simp] theorem mem_combTargets {f : Fragment} {s : SignalId} :
    s ∈ f.combTargets ↔ s ∈ Stmt.targetsAll f.comb := by
  simp [combTargets, Std.ExtTreeSet.mem_ofList]

@[simp] theorem mem_syncTargets {f : Fragment} {s : SignalId} :
    s ∈ f.syncTargets ↔ s ∈ Stmt.targetsAll f.sync := by
  simp [syncTargets, Std.ExtTreeSet.mem_ofList]

end Fragment

end IrqSynth
