-- SUMMARY: Every net of a design belongs to one object.
import IrqSynth.Proofs.Exclusive

/-!
# Owners of nets

Every net that a design hands out belongs to one object: ids come from one counter, and what is made
later has later ids. Finalized controllers therefore have no net in common, nor has a shared line a
net of any controller.

Main statements: `partitioned_run`, `Partitioned.equips_unique` and `Partitioned.not_equips_line`.
-/
namespace IrqSynth

/-- All nets of the registers of a layout lie in the range of ids it was given. -/
theorem Layout.net?_line_mem_range {sources : List Source} {irq : Signal} {base x : SignalId}
    {role : Role} {q : Line} (h : ((synthesize sources irq base).register role).net? q = some x) :
    base ≤ x ∧ x < base + (synthesize sources irq base).signalCount := by
  have hrange := Register.net?_mem_range h
  cases role <;>
    simp only [register, synthesize, signalCount, Role.base_synthesize,
      Role.signalCount_synthesize] at hrange ⊢ <;> lia

namespace Design

/-- The objects that own nets. They are named by position, but a source, which may have many handles,
by its id. The registers of a controller are apart from its interrupt line. -/
inductive Owner where
  | signal (k : Nat)
  | source (id : SourceId)
  | register (k : Nat)
  | irq (m : Nat)
  | layout (m : Nat)
  | line (k : Nat)
  deriving DecidableEq, Repr

/-- The object has the net. -/
def Owns (d : Design) : Owner → SignalId → Prop
  | .signal k, x => ∃ s, d.signals[k]? = some s ∧ x = s.id
  | .source id, x => ∃ s ∈ d.sources, s.id = id ∧ s.base ≤ x ∧ x < s.base + s.signalCount
  | .register k, x => ∃ r, d.registers[k]? = some r ∧ r.base ≤ x ∧ x < r.base + r.signalCount
  | .irq m, x => ∃ c, d.controllers[m]? = some c ∧ x = c.irq.id
  | .layout m, x => ∃ c l, d.controllers[m]? = some c ∧ c.layout = some l ∧
      ∃ role q, (l.register role).net? q = some x
  | .line k, x => ∃ line, d.lines[k]? = some line ∧ x = line.irq.id

variable {d d' : Design} {command : Command} {answer : Answer} {m n k : Nat} {c c' : Controller}
  {l l' : Layout} {o : Owner} {x : SignalId}

/-- Owned nets have ids that were handed out, and no net has two owners. -/
structure Partitioned (d : Design) : Prop where
  fresh : ∀ o x, d.Owns o x → x < d.nextSignal
  unique : ∀ o o' x, d.Owns o x → d.Owns o' x → o = o'

/-! ## Effects -/

theorem Partitioned.of_owns (h : d.Partitioned) (hnext : d.nextSignal ≤ d'.nextSignal)
    (howns : ∀ o x, d'.Owns o x → d.Owns o x) : d'.Partitioned := by
  refine ⟨?_, ?_⟩
  · intro o x hx
    exact Nat.lt_of_lt_of_le (h.fresh o x (howns o x hx)) hnext
  · intro o o' x hx hx'
    exact h.unique o o' x (howns o x hx) (howns o' x hx')

/-- One object may take nets that were not handed out before. -/
theorem Partitioned.grow (h : d.Partitioned) (o : Owner) (hnext : d.nextSignal ≤ d'.nextSignal)
    (hnew : ∀ o' x, d'.Owns o' x →
      d.Owns o' x ∨ o' = o ∧ d.nextSignal ≤ x ∧ x < d'.nextSignal) : d'.Partitioned := by
  refine ⟨?_, ?_⟩
  · intro o' x hx
    rcases hnew o' x hx with hold | ⟨-, -, hlt⟩
    · exact Nat.lt_of_lt_of_le (h.fresh o' x hold) hnext
    · exact hlt
  · intro o₁ o₂ x h₁ h₂
    rcases hnew o₁ x h₁ with hold₁ | ⟨rfl, hge₁, -⟩ <;>
      rcases hnew o₂ x h₂ with hold₂ | ⟨rfl, hge₂, -⟩
    · exact h.unique o₁ o₂ x hold₁ hold₂
    · exact absurd (h.fresh o₁ x hold₁) (Nat.not_lt.2 hge₂)
    · exact absurd (h.fresh o₂ x hold₂) (Nat.not_lt.2 hge₁)
    · rfl

theorem exists_of_push {α : Type} {xs : Array α} {y : α} {P : α → Prop}
    (h : ∃ z, (xs.push y)[k]? = some z ∧ P z) :
    (∃ z, xs[k]? = some z ∧ P z) ∨ k = xs.size ∧ P y := by
  obtain ⟨z, hz, hP⟩ := h
  rcases push_cases hz with ⟨rfl, rfl⟩ | hz
  · exact .inr ⟨rfl, hP⟩
  · exact .inl ⟨z, hz, hP⟩

/-- A controller replaced by one with the same interrupt line owns that line as before. -/
theorem owns_irq_of_replace (hx : d'.Owns (.irq n) x) (hc : d.controllers[m]? = some c)
    (hcontrollers : d'.controllers = d.controllers.setIfInBounds m c') (hirq : c'.irq = c.irq) :
    d.Owns (.irq n) x := by
  obtain ⟨c₁, hc₁, rfl⟩ := hx
  rw [hcontrollers] at hc₁
  rcases replace_cases hc hc₁ with ⟨rfl, rfl⟩ | ⟨-, hc₁⟩
  · exact ⟨c, hc, by rw [hirq]⟩
  · exact ⟨c₁, hc₁, rfl⟩

/-- The registers of a replaced controller are those of the new one. -/
theorem owns_layout_of_replace (hx : d'.Owns (.layout n) x) (hc : d.controllers[m]? = some c)
    (hcontrollers : d'.controllers = d.controllers.setIfInBounds m c') :
    d.Owns (.layout n) x ∨
      n = m ∧ ∃ l role q, c'.layout = some l ∧ (l.register role).net? q = some x := by
  obtain ⟨c₁, l, hc₁, hl, role, q, hq⟩ := hx
  rw [hcontrollers] at hc₁
  rcases replace_cases hc hc₁ with ⟨rfl, rfl⟩ | ⟨-, hc₁⟩
  · exact .inr ⟨rfl, l, role, q, hl, hq⟩
  · exact .inl ⟨c₁, l, hc₁, hl, role, q, hq⟩

theorem Effect.partitioned (he : d.Effect command answer d') (h : d.Partitioned) :
    d'.Partitioned := by
  cases he with
  | refused => exact h
  | missing => exact h
  | bank => exact h
  | signal name =>
    refine h.grow (.signal d.signals.size) (Nat.le_succ _) fun o x hx => ?_
    cases o with
    | signal k =>
      rcases exists_of_push hx with hx | ⟨rfl, rfl⟩
      · exact .inl hx
      · exact .inr ⟨rfl, Nat.le_refl _, Nat.lt_succ_self _⟩
    | _ => exact .inl hx
  | source kind name description s hs =>
    refine h.grow (.source s.id) (Nat.le_add_right _ _) fun o x hx => ?_
    cases o with
    | source id =>
      obtain ⟨t, ht, rfl, hx⟩ := hx
      rcases Array.mem_push.1 ht with ht | rfl
      · exact .inl ⟨t, ht, rfl, hx⟩
      · have hbase : t.base = d.nextSignal := hs ▸ rfl
        exact .inr ⟨rfl, hbase ▸ hx⟩
    | _ => exact .inl hx
  | handle j description s hs =>
    refine h.of_owns (Nat.le_refl _) fun o x hx => ?_
    cases o with
    | source id =>
      obtain ⟨t, ht, rfl, hx⟩ := hx
      rcases Array.mem_push.1 ht with ht | rfl
      · exact ⟨t, ht, rfl, hx⟩
      · exact ⟨s, Array.mem_of_getElem? hs, rfl, hx⟩
    | _ => exact hx
  | register r hr =>
    refine h.grow (.register d.registers.size) (Nat.le_add_right _ _) fun o x hx => ?_
    cases o with
    | register k =>
      rcases exists_of_push hx with hx | ⟨rfl, hrange⟩
      · exact .inl hx
      · exact .inr ⟨rfl, hr ▸ hrange⟩
    | _ => exact .inl hx
  | controller =>
    refine h.grow (.irq d.controllers.size) (Nat.le_succ _) fun o x hx => ?_
    cases o with
    | irq m =>
      rcases exists_of_push hx with hx | ⟨rfl, rfl⟩
      · exact .inl hx
      · exact .inr ⟨rfl, Nat.le_refl _, Nat.lt_succ_self _⟩
    | layout m =>
      obtain ⟨c, l, hc, hl, hx⟩ := hx
      rcases push_cases hc with ⟨-, rfl⟩ | hc
      · cases hl
      · exact .inl ⟨c, l, hc, hl, hx⟩
    | _ => exact .inl hx
  | attach m j c s owned hc hs hfree howned =>
    refine h.of_owns (Nat.le_refl _) fun o x hx => ?_
    cases o with
    | irq n => exact owns_irq_of_replace hx hc rfl rfl
    | layout n =>
      rcases owns_layout_of_replace hx hc rfl with hx | ⟨rfl, l, role, q, hl, hq⟩
      · exact hx
      · exact ⟨c, l, hc, hl, role, q, hq⟩
    | _ => exact hx
  | finalize m c l hc hopen hunique hl =>
    refine h.grow (.layout m) (Nat.le_add_right _ _) fun o x hx => ?_
    cases o with
    | irq n => exact .inl (owns_irq_of_replace hx hc rfl rfl)
    | layout n =>
      rcases owns_layout_of_replace hx hc rfl with hx | ⟨rfl, l', role, q, hl', hq⟩
      · exact .inl hx
      · obtain rfl : l = l' := Option.some.inj hl'
        subst hl
        exact .inr ⟨rfl, Layout.net?_line_mem_range hq⟩
    | _ => exact .inl hx
  | share controllers cs line hcs hline =>
    refine h.grow (.line d.lines.size) (Nat.le_succ _) fun o x hx => ?_
    cases o with
    | line k =>
      rcases exists_of_push hx with hx | ⟨rfl, rfl⟩
      · exact .inl hx
      · rw [(SharedLine.join_eq_ok.1 hline).2]
        exact .inr ⟨rfl, Nat.le_refl _, Nat.lt_succ_self _⟩
    | _ => exact .inl hx

theorem partitioned_empty : empty.Partitioned := by
  have hnone : ∀ o x, ¬empty.Owns o x := by
    intro o x hx
    cases o <;> simp [Owns, empty] at hx
  exact ⟨fun o x hx => absurd hx (hnone o x), fun o _ x hx => absurd hx (hnone o x)⟩

/-- In no run of commands do two objects come to share a net. -/
theorem partitioned_run (commands : List Command) : (empty.run commands).2.Partitioned :=
  run_invariant partitioned_empty Effect.partitioned commands

/-! ## Nets of controllers -/

/-- The net is the interrupt line of controller `m`, a line of its registers or a port of one of its
sources. -/
def Equips (d : Design) (m : Nat) (x : SignalId) : Prop :=
  d.Owns (.irq m) x ∨ d.Owns (.layout m) x ∨ ∃ id, d.Holds m id ∧ d.Owns (.source id) x

theorem WellFormed.equips (h : d.WellFormed) (hc : d.controllers[m]? = some c)
    (hl : c.layout = some l) {net : Net} (hnet : l.net? c.roster.sources c.irq net = some x) :
    d.Equips m x := by
  cases net with
  | irq => exact .inl ⟨c, hc, (Option.some.inj hnet).symm⟩
  | line role q => exact .inr (.inl ⟨c, l, hc, hl, role, q, hnet⟩)
  | port i q =>
    obtain ⟨s, hs, hq⟩ : ∃ s, c.roster.sources[i]? = some s ∧ s.net? q = some x :=
      Option.bind_eq_some_iff.1 hnet
    obtain ⟨rfl, hoffset⟩ := Source.net?_eq_some.1 hq
    have hmem := List.mem_of_getElem? hs
    refine .inr (.inr ⟨s.id, ⟨c, hc, List.mem_map_of_mem hmem⟩, ?_⟩)
    exact ⟨s, (h.houses m c hc).sources s hmem, rfl, Nat.le_add_right _ _,
      Nat.add_lt_add_left hoffset _⟩

/-- Different controllers are equipped with different nets. -/
theorem Partitioned.equips_unique (h : d.Partitioned) (he : d.Exclusive) (hm : d.Equips m x)
    (hn : d.Equips n x) : m = n := by
  rcases hm with hm | hm | ⟨id, hid, hm⟩ <;> rcases hn with hn | hn | ⟨id', hid', hn⟩ <;>
    cases h.unique _ _ x hm hn
  · rfl
  · rfl
  · exact he.single m n id hid hid'

theorem Partitioned.not_equips_line (h : d.Partitioned) (hline : d.Owns (.line k) x) :
    ¬d.Equips m x := by
  rintro (hm | hm | ⟨id, -, hm⟩) <;> cases h.unique _ _ x hline hm

end Design

end IrqSynth
