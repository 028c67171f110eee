-- SUMMARY: Programs that keep their state on failure, with one equation per combinator, and the accesses to a bank as such programs.
import IrqSynth.Bank

/-!
# Programs in place

Programs that change one state step by step: what was done before a failure stays done, and the
program shows the state in which a failure leaves it. The accesses to a bank are such programs here:
the levels are set one after the other.

Main statement: `on_bind` (a program goes on with the state that its first step leaves).
-/
namespace IrqSynth

namespace InPlace

/-- A program on a state of type `σ` that may fail part of the way. -/
abbrev Program (ε σ : Type) := ExceptT ε (StateM σ)

section

variable {ε σ α β : Type}

/-- The result of a program, and the state as the program leaves it. -/
def Program.on (x : Program ε σ α) (s : σ) : Except ε α × σ :=
  x.run.run s

@[simp] theorem on_pure (a : α) (s : σ) : (pure a : Program ε σ α).on s = (.ok a, s) :=
  rfl

@[simp] theorem on_throw (e : ε) (s : σ) : (throw e : Program ε σ α).on s = (.error e, s) :=
  rfl

@[simp] theorem on_get (s : σ) : (get : Program ε σ σ).on s = (.ok s, s) :=
  rfl

@[simp] theorem on_set (after s : σ) : (set after : Program ε σ PUnit).on s = (.ok ⟨⟩, after) :=
  rfl

@[simp] theorem on_modify (f : σ → σ) (s : σ) :
    (modify f : Program ε σ PUnit).on s = (.ok ⟨⟩, f s) :=
  rfl

/-- A program goes on with the state that its first step leaves, unless that step fails. -/
theorem on_bind (x : Program ε σ α) (f : α → Program ε σ β) (s : σ) :
    (x >>= f).on s = match x.on s with
      | (.ok a, after) => (f a).on after
      | (.error e, after) => (.error e, after) := by
  have hrun : (x >>= f).on s = (ExceptT.bindCont f (x.on s).1).run (x.on s).2 := rfl
  rw [hrun]
  cases x.on s with
  | mk r after => cases r <;> rfl

theorem on_bind_of_ok {x : Program ε σ α} {s after : σ} {a : α} (h : x.on s = (.ok a, after))
    (f : α → Program ε σ β) : (x >>= f).on s = (f a).on after := by
  rw [on_bind, h]

theorem on_bind_of_error {x : Program ε σ α} {s after : σ} {e : ε}
    (h : x.on s = (.error e, after)) (f : α → Program ε σ β) :
    (x >>= f).on s = (.error e, after) := by
  rw [on_bind, h]

theorem on_ofExcept (s : σ) (r : Except ε α) :
    (MonadExcept.ofExcept r : Program ε σ α).on s = (r, s) := by
  cases r <;> rfl

end

-- ---------------------------------------------------------------------------
-- Accesses to a bank
-- ---------------------------------------------------------------------------

/-- An access to a bank. -/
abbrev Access := Program ErrorCode Bank

/-- Acts on the simulation. -/
def drive (action : Simulator.Action) : Access Unit :=
  modify fun b => { b with sim := b.sim.act action }

def locate (offset : Nat) : Access (Role × Nat) := do
  let b ← get
  MonadExcept.ofExcept (b.locate offset)

def read (offset : Nat) : Access BusValue := do
  let (role, w) ← locate offset
  let b ← get
  return b.word role w

/-- Puts write line `i` on its level. A level that is kept is read from the bank as it is by then. -/
def present (role : Role) (w : Nat) (value : BusValue) (i : Nat) : Access Unit := do
  let b ← get
  drive (.set ((b.layout.register role).written i).id (b.lineLevel role w value i))

def write (offset : Nat) (value : BusValue) : Access Unit := do
  let (role, w) ← locate offset
  let b ← get
  let register := b.layout.register role
  forM (List.range register.width) (present role w value)
  drive (.set register.strobe.id true)
  drive .tick
  drive (.set register.strobe.id false)
  drive .settle

def position (i : Nat) : Access (Nat × BusValue) := do
  let b ← get
  MonadExcept.ofExcept (b.position i)

def test (role : Role) (i : Nat) : Access Bool := do
  let (byte, mask) ← position i
  let b ← get
  let value ← read (b.offset role + byte)
  return value &&& mask ≠ 0

/-- Writes the word of an event in the enable register as `f` makes it of that word and the mask. -/
def change (i : Nat) (f : BusValue → BusValue → BusValue) : Access Unit := do
  let (byte, mask) ← position i
  let b ← get
  let offset := b.offset .enable + byte
  let value ← read offset
  write offset (f value mask)

def enable (i : Nat) : Access Unit :=
  change i fun word mask => word ||| mask

def disable (i : Nat) : Access Unit :=
  change i fun word mask => word &&& ~~~mask

def acknowledge (i : Nat) : Access Unit := do
  let (byte, mask) ← position i
  let b ← get
  write (b.offset .pending + byte) mask

/-- Performs one action. -/
def perform : Bank.Action → Access Unit
  | .drive action => drive action
  | .read offset => do
    let _ ← read offset
  | .write offset value => write offset value
  | .enable i => enable i
  | .disable i => disable i
  | .acknowledge i => acknowledge i

end InPlace

end IrqSynth
