-- SUMMARY: The effects of commands on a design, and the invariants of designs built from nothing.
import IrqSynth.Design
import IrqSynth.Proofs.Net

/-!
# Designs under construction

What a command can do to a design, and what every design built from nothing satisfies: ids are handed
out in order and without overlap, handles to one source agree in all but the description, and the
layout of a finalized controller is the one for its sources.

Main statements: `perform_effect` (all a command can do), `run_invariant`, `wellFormed_run` and
`WellFormed.exists_placement`.
-/
namespace IrqSynth

namespace Ownership

@[simp] theorem isTaken_empty (id : SourceId) : empty.isTaken id = false := by
  simp [isTaken, empty]

theorem take?_eq_some {o o' : Ownership} {id : SourceId} :
    o.take? id = some o' ↔ o.isTaken id = false ∧ o' = ⟨o.taken.insert id⟩ := by
  unfold take?
  cases o.isTaken id <;> simp [eq_comm]

theorem isTaken_insert (o : Ownership) (id t : SourceId) :
    (Ownership.mk (o.taken.insert id)).isTaken t ↔ t = id ∨ o.isTaken t := by
  simp only [isTaken, Std.ExtTreeSet.contains_insert, Bool.or_eq_true, beq_iff_eq,
    Std.compare_eq_iff_eq, eq_comm (a := id)]

end Ownership

namespace Controller

variable {c c' : Controller} {o o' : Ownership} {s : Source} {base : SignalId} {l : Layout}

/-- An accepted source meets no objection and is free. -/
theorem attach_eq_ok :
    c.attach o s = .ok (c', o') ↔
      c.objection? o s = none ∧ o.take? s.id = some o' ∧ c' = c.accept s := by
  unfold attach
  cases c.objection? o s with
  | some e => simp
  | none => cases o.take? s.id <;> simp [eq_comm, and_comm]

/-- A source meets no objection if the controller is open and has room, and the source and its name
are free. -/
theorem objection?_eq_none :
    c.objection? o s = none ↔ c.layout = none ∧ s.id ∉ c.roster.ids ∧ o.isTaken s.id = false ∧
      c.roster.size < maxSources ∧ ∀ name, s.name = some name → c.names.contains name = false := by
  unfold objection? isFinalized
  cases c.layout with
  | some l => simp
  | none =>
    cases s.name with
    | none => grind [Roster.holds_iff]
    | some name => grind [Roster.holds_iff]

theorem contains_names_accept {name : String} :
    (c.accept s).names.contains name ↔ s.name = some name ∨ c.names.contains name := by
  unfold accept
  cases s.name with
  | none => simp
  | some other =>
    simp only [Std.ExtTreeSet.contains_insert, Bool.or_eq_true, beq_iff_eq,
      Std.compare_eq_iff_eq, Option.some.injEq]

theorem finalize_eq_ok :
    c.finalize base = .ok (c', l) ↔
      c.layout = none ∧ Roster.firstRepeat? [] c.roster.fieldNames = none ∧
        l = Layout.synthesize c.roster.sources c.irq base ∧ c' = { c with layout := some l } := by
  unfold finalize isFinalized
  cases c.layout with
  | some l' => simp
  | none =>
    cases Roster.firstRepeat? [] c.roster.fieldNames with
    | some name => simp
    | none => grind

end Controller

/-! ## Arrays of objects -/

section

variable {α : Type} {xs : Array α} {x y : α} {i j : Nat}

theorem getElem?_push_of_some (h : xs[i]? = some x) : (xs.push y)[i]? = some x := by
  have hi : i < xs.size := (Array.getElem?_eq_some_iff.1 h).1
  rw [Array.getElem?_push_lt hi, ← h, Array.getElem?_eq_getElem hi]

theorem push_cases (h : (xs.push y)[i]? = some x) :
    i = xs.size ∧ x = y ∨ xs[i]? = some x := by
  rw [Array.getElem?_push] at h
  split at h
  · exact .inl ⟨‹_›, (Option.some.inj h).symm⟩
  · exact .inr h

theorem getElem?_replace (y : α) (h : xs[i]? = some x) :
    (xs.setIfInBounds i y)[j]? = if i = j then some y else xs[j]? := by
  have hi : i < xs.size := (Array.getElem?_eq_some_iff.1 h).1
  rw [Array.getElem?_setIfInBounds, if_pos hi]

theorem replace_cases {z : α} (h : xs[i]? = some x) (hz : (xs.setIfInBounds i y)[j]? = some z) :
    i = j ∧ z = y ∨ i ≠ j ∧ xs[j]? = some z := by
  rw [getElem?_replace y h] at hz
  split at hz
  · exact .inl ⟨‹_›, (Option.some.inj hz).symm⟩
  · exact .inr ⟨‹_›, hz⟩

end

namespace Design

/-! ## Effects of commands -/

/-- What a command can answer, and what it then makes of the design. -/
inductive Effect (d : Design) : Command → Answer → Design → Prop where
  | refused (command : Command) (reason : ElabError) : Effect d command (.refused reason) d
  | missing (command : Command) : Effect d command .missing d
  | bank (m : Nat) (b : Bank) : Effect d (.bank m) (.bank b) d
  | signal (name : String) :
    Effect d (.signal name) (.signal ⟨d.nextSignal, name⟩)
      { d with
        nextSignal := d.nextSignal + 1
        signals := d.signals.push ⟨d.nextSignal, name⟩ }
  | source (kind : SourceKind) (name description : Option String) (s : Source)
      (hs : s = ⟨d.nextSource, kind, name, description, d.nextSignal⟩) :
    Effect d (.source kind name description) (.source s)
      { d with
        nextSignal := d.nextSignal + s.signalCount
        nextSource := d.nextSource + 1
        sources := d.sources.push s }
  | handle (j : Nat) (description : Option String) (s : Source) (hs : d.sources[j]? = some s) :
    Effect d (.handle j description)
      (.source { s with description := description <|> s.description })
      { d with sources := d.sources.push { s with description := description <|> s.description } }
  | register (r : Register) (hr : r.base = d.nextSignal) :
    Effect d (.register r.kind r.name r.description r.fields) (.register r)
      { d with
        nextSignal := d.nextSignal + r.signalCount
        registers := d.registers.push r }
  | controller :
    Effect d .controller (.controller (Controller.create d.nextSignal).irq)
      { d with
        nextSignal := d.nextSignal + 1
        controllers := d.controllers.push (Controller.create d.nextSignal) }
  | attach (m j : Nat) (c : Controller) (s : Source) (owned : Ownership)
      (hc : d.controllers[m]? = some c) (hs : d.sources[j]? = some s)
      (hfree : c.objection? d.owned s = none) (howned : d.owned.take? s.id = some owned) :
    Effect d (.attach m j) (.attached s.ports)
      { d with owned, controllers := d.controllers.setIfInBounds m (c.accept s) }
  | finalize (m : Nat) (c : Controller) (l : Layout) (hc : d.controllers[m]? = some c)
      (hopen : c.layout = none) (hunique : Roster.firstRepeat? [] c.roster.fieldNames = none)
      (hl : l = Layout.synthesize c.roster.sources c.irq d.nextSignal) :
    Effect d (.finalize m) (.finalized l)
      { d with
        nextSignal := d.nextSignal + l.signalCount
        controllers := d.controllers.setIfInBounds m { c with layout := some l } }
  | share (controllers : List Nat) (cs : List Controller) (line : SharedLine)
      (hcs : (controllers.mapM fun m => d.controllers[m]?) = some cs)
      (hline : SharedLine.join cs d.nextSignal = .ok line) :
    Effect d (.share controllers) (.shared line)
      { d with nextSignal := d.nextSignal + 1, lines := d.lines.push line }

theorem perform_effect (d : Design) (command : Command) :
    d.Effect command (d.perform command).1 (d.perform command).2 := by
  cases command with
  | signal name => exact .signal name
  | source kind name description => exact .source kind name description _ rfl
  | register kind name description fields =>
    exact .register ⟨name, kind, description, fields, d.nextSignal⟩ rfl
  | controller => exact .controller
  | bank m =>
    simp only [perform, bank]
    split
    · exact .missing _
    · split
      · exact .refused _ _
      · exact .bank m _
  | handle j description =>
    simp only [perform, addHandle]
    split
    · exact .missing _
    · rename_i s hs
      exact .handle j description s hs
  | attach m j =>
    simp only [perform, attach]
    split
    · rename_i c s hc hs
      split
      · exact .refused _ _
      · rename_i c' owned h
        obtain ⟨hfree, howned, rfl⟩ := Controller.attach_eq_ok.1 h
        exact .attach m j c s owned hc hs hfree howned
    · exact .missing _
  | finalize m =>
    simp only [perform, finalize]
    split
    · exact .missing _
    · rename_i c hc
      split
      · exact .refused _ _
      · rename_i c' l h
        obtain ⟨hopen, hunique, hl, rfl⟩ := Controller.finalize_eq_ok.1 h
        exact .finalize m c l hc hopen hunique hl
  | share controllers =>
    simp only [perform, share]
    split
    · exact .missing _
    · rename_i cs hcs
      split
      · exact .refused _ _
      · rename_i line hline
        exact .share controllers cs line hcs hline

variable {d d' : Design} {command : Command} {answer : Answer} {c : Controller}

/-- The design after controller `m`, so far `c`, has taken a source. -/
def afterAttach (d : Design) (m : Nat) (c : Controller) (s : Source) : Design :=
  { d with
    owned := ⟨d.owned.taken.insert s.id⟩
    controllers := d.controllers.setIfInBounds m (c.accept s) }

theorem perform_attach_eq {m j : Nat} {s : Source} (hc : d.controllers[m]? = some c)
    (hs : d.sources[j]? = some s) (hfree : c.objection? d.owned s = none) :
    d.perform (.attach m j) = (.attached s.ports, d.afterAttach m c s) := by
  have htaken := (Controller.objection?_eq_none.1 hfree).2.2.1
  have hattach : c.attach d.owned s = .ok (c.accept s, ⟨d.owned.taken.insert s.id⟩) :=
    Controller.attach_eq_ok.2 ⟨hfree, Ownership.take?_eq_some.2 ⟨htaken, rfl⟩, rfl⟩
  simp only [perform, attach, hc, hs, hattach]
  rfl

/-- Attaching answers with the objection, if there is one. -/
theorem perform_attach {m j : Nat} {s : Source} (hc : d.controllers[m]? = some c)
    (hs : d.sources[j]? = some s) :
    (d.perform (.attach m j)).1 =
      match c.objection? d.owned s with
      | some e => .refused e
      | none => .attached s.ports := by
  cases hobjection : c.objection? d.owned s with
  | some e => simp only [perform, attach, hc, hs, Controller.attach, hobjection]
  | none => rw [perform_attach_eq hc hs hobjection]

/-! ## Allocation of ids -/

/-- Sources have ids that were handed out, later sources have later nets, and handles to one source
agree in all but the description. -/
structure Allocated (d : Design) : Prop where
  fresh : ∀ s ∈ d.sources, s.id < d.nextSource ∧ s.base + s.signalCount ≤ d.nextSignal
  apart : ∀ s ∈ d.sources, ∀ t ∈ d.sources, s.id < t.id → s.base + s.signalCount ≤ t.base
  same : ∀ s ∈ d.sources, ∀ t ∈ d.sources, s.id = t.id →
    s.kind = t.kind ∧ s.name = t.name ∧ s.base = t.base

theorem signalCount_congr {s t : Source} (h : s.kind = t.kind) : s.signalCount = t.signalCount := by
  rw [Source.signalCount, Source.signalCount, h]

theorem Allocated.mono (h : d.Allocated) (hsources : d'.sources = d.sources)
    (hnext : d'.nextSource = d.nextSource) (hsignal : d.nextSignal ≤ d'.nextSignal) :
    d'.Allocated := by
  refine ⟨?_, hsources ▸ h.apart, hsources ▸ h.same⟩
  intro s hs
  obtain ⟨hid, hbase⟩ := h.fresh s (hsources ▸ hs)
  exact ⟨hnext ▸ hid, Nat.le_trans hbase hsignal⟩

theorem Allocated.source (h : d.Allocated) {s : Source} (hid : s.id = d.nextSource)
    (hbase : s.base = d.nextSignal) (hsources : d'.sources = d.sources.push s)
    (hnext : d'.nextSource = d.nextSource + 1)
    (hsignal : d'.nextSignal = d.nextSignal + s.signalCount) : d'.Allocated := by
  have hmem : ∀ t, t ∈ d'.sources ↔ t ∈ d.sources ∨ t = s := by
    intro t
    rw [hsources, Array.mem_push]
  refine ⟨?_, ?_, ?_⟩
  · intro t ht
    rcases (hmem t).1 ht with ht | rfl
    · have hfresh := h.fresh t ht
      lia
    · lia
  · intro t ht u hu htu
    rcases (hmem t).1 ht with ht | rfl <;> rcases (hmem u).1 hu with hu | rfl
    · exact h.apart t ht u hu htu
    · have hfresh := h.fresh t ht
      lia
    · have hfresh := h.fresh u hu
      lia
    · lia
  · intro t ht u hu htu
    rcases (hmem t).1 ht with ht | rfl <;> rcases (hmem u).1 hu with hu | rfl
    · exact h.same t ht u hu htu
    · have hfresh := h.fresh t ht
      lia
    · have hfresh := h.fresh u hu
      lia
    · exact ⟨rfl, rfl, rfl⟩

theorem Allocated.handle (h : d.Allocated) {s : Source} (hs : s ∈ d.sources)
    {description : Option String} (hsources : d'.sources = d.sources.push { s with description })
    (hnext : d'.nextSource = d.nextSource) (hsignal : d'.nextSignal = d.nextSignal) :
    d'.Allocated := by
  -- every member of the longer array is a member of the shorter one, but for the description
  have hmem : ∀ t ∈ d'.sources, ∃ u ∈ d.sources,
      t.id = u.id ∧ t.kind = u.kind ∧ t.name = u.name ∧ t.base = u.base := by
    intro t ht
    rw [hsources, Array.mem_push] at ht
    rcases ht with ht | rfl
    · exact ⟨t, ht, rfl, rfl, rfl, rfl⟩
    · exact ⟨s, hs, rfl, rfl, rfl, rfl⟩
  refine ⟨?_, ?_, ?_⟩
  · intro t ht
    obtain ⟨t', ht', hid, hkind, -, hbase⟩ := hmem t ht
    have hfresh := h.fresh t' ht'
    rw [← hid, ← hbase, ← signalCount_congr hkind] at hfresh
    rw [hnext, hsignal]
    exact hfresh
  · intro t ht u hu htu
    obtain ⟨t', ht', hid, hkind, -, hbase⟩ := hmem t ht
    obtain ⟨u', hu', hid', -, -, hbase'⟩ := hmem u hu
    rw [hid, hid'] at htu
    rw [hbase, hbase', signalCount_congr hkind]
    exact h.apart t' ht' u' hu' htu
  · intro t ht u hu htu
    obtain ⟨t', ht', hid, hkind, hname, hbase⟩ := hmem t ht
    obtain ⟨u', hu', hid', hkind', hname', hbase'⟩ := hmem u hu
    rw [hid, hid'] at htu
    rw [hkind, hkind', hname, hname', hbase, hbase']
    exact h.same t' ht' u' hu' htu

theorem Effect.allocated (he : d.Effect command answer d') (h : d.Allocated) : d'.Allocated := by
  cases he with
  | refused => exact h
  | missing => exact h
  | bank => exact h
  | signal => exact h.mono rfl rfl (Nat.le_add_right _ _)
  | source kind name description s hs => exact h.source (hs ▸ rfl) (hs ▸ rfl) rfl rfl rfl
  | handle j description s hs =>
    exact h.handle (Array.mem_of_getElem? hs) rfl rfl rfl
  | register => exact h.mono rfl rfl (Nat.le_add_right _ _)
  | controller => exact h.mono rfl rfl (Nat.le_add_right _ _)
  | attach => exact h.mono rfl rfl (Nat.le_refl _)
  | finalize => exact h.mono rfl rfl (Nat.le_add_right _ _)
  | share => exact h.mono rfl rfl (Nat.le_add_right _ _)

/-! ## Growth -/

/-- A design that grew out of another has its sources, and its new sources share their nets with an
old one or have nets of their own. -/
structure Extends (d d' : Design) : Prop where
  signals : d.nextSignal ≤ d'.nextSignal
  sources : ∀ s ∈ d.sources, s ∈ d'.sources
  origin : ∀ t ∈ d'.sources, d.nextSignal ≤ t.base ∨
    ∃ s ∈ d.sources, t.base = s.base ∧ t.signalCount = s.signalCount

theorem Extends.of_sources_eq (hsources : d'.sources = d.sources)
    (hsignals : d.nextSignal ≤ d'.nextSignal) : d.Extends d' := by
  refine ⟨hsignals, fun s hs => hsources ▸ hs, ?_⟩
  intro t ht
  exact .inr ⟨t, hsources ▸ ht, rfl, rfl⟩

theorem Effect.extends (he : d.Effect command answer d') : d.Extends d' := by
  cases he with
  | source kind name description s hs =>
    refine ⟨Nat.le_add_right _ _, fun t ht => Array.mem_push.2 (.inl ht), ?_⟩
    intro t ht
    rcases Array.mem_push.1 ht with ht | rfl
    · exact .inr ⟨t, ht, rfl, rfl⟩
    · exact .inl (hs ▸ Nat.le_refl _)
  | handle j description s hs =>
    refine ⟨Nat.le_refl _, fun t ht => Array.mem_push.2 (.inl ht), ?_⟩
    intro t ht
    rcases Array.mem_push.1 ht with ht | rfl
    · exact .inr ⟨t, ht, rfl, rfl⟩
    · exact .inr ⟨s, Array.mem_of_getElem? hs, rfl, rfl⟩
  | refused => exact .of_sources_eq rfl (Nat.le_refl _)
  | missing => exact .of_sources_eq rfl (Nat.le_refl _)
  | bank => exact .of_sources_eq rfl (Nat.le_refl _)
  | attach => exact .of_sources_eq rfl (Nat.le_refl _)
  | signal => exact .of_sources_eq rfl (Nat.le_add_right _ _)
  | register => exact .of_sources_eq rfl (Nat.le_add_right _ _)
  | controller => exact .of_sources_eq rfl (Nat.le_add_right _ _)
  | finalize => exact .of_sources_eq rfl (Nat.le_add_right _ _)
  | share => exact .of_sources_eq rfl (Nat.le_add_right _ _)

/-! ## Controllers -/

/-- The sources of a controller are sources of the design, its line is no port of a source, and its
layout is that of its sources on register nets of its own. -/
structure Houses (d : Design) (c : Controller) : Prop where
  irq_fresh : c.irq.id < d.nextSignal
  irq_apart : ∀ s ∈ d.sources, c.irq.id < s.base ∨ s.base + s.signalCount ≤ c.irq.id
  sources : ∀ s ∈ c.roster.sources, s ∈ d.sources
  layout : ∀ l, c.layout = some l → ∃ base, l = Layout.synthesize c.roster.sources c.irq base ∧
    (∀ s ∈ c.roster.sources, s.base + s.signalCount ≤ base) ∧ c.irq.id < base ∧
    base + l.signalCount ≤ d.nextSignal

theorem Houses.mono (h : d.Houses c) (hd : d.Extends d') : d'.Houses c := by
  refine ⟨Nat.lt_of_lt_of_le h.irq_fresh hd.signals, ?_, ?_, ?_⟩
  · intro t ht
    have hfresh := h.irq_fresh
    rcases hd.origin t ht with hnew | ⟨s, hs, hbase, hcount⟩
    · lia
    · rw [hbase, hcount]
      exact h.irq_apart s hs
  · exact fun s hs => hd.sources s (h.sources s hs)
  · intro l hl
    obtain ⟨base, hsynth, hbelow, hirq, hend⟩ := h.layout l hl
    exact ⟨base, hsynth, hbelow, hirq, Nat.le_trans hend hd.signals⟩

theorem Allocated.houses_create (h : d.Allocated) (hsources : d'.sources = d.sources)
    (hsignals : d'.nextSignal = d.nextSignal + 1) :
    d'.Houses (Controller.create d.nextSignal) := by
  refine ⟨hsignals ▸ Nat.lt_succ_self _, ?_, ?_, ?_⟩
  · intro s hs
    exact .inr (h.fresh s (hsources ▸ hs)).2
  · intro s hs
    cases hs
  · intro l hl
    cases hl

theorem Houses.accept (h : d.Houses c) {s : Source} (hs : s ∈ d.sources) (hopen : c.layout = none) :
    d.Houses (c.accept s) := by
  refine ⟨h.irq_fresh, h.irq_apart, ?_, ?_⟩
  · intro t ht
    rcases Roster.eq_or_mem_of_mem_place ht with rfl | ht
    · exact hs
    · exact h.sources t ht
  · intro l hl
    have hnone : (c.accept s).layout = none := hopen
    rw [hnone] at hl
    cases hl

theorem Houses.finalize (h : d.Houses c) (ha : d.Allocated) {l : Layout}
    (hl : l = Layout.synthesize c.roster.sources c.irq d.nextSignal)
    (hsources : d'.sources = d.sources) (hsignals : d'.nextSignal = d.nextSignal + l.signalCount) :
    d'.Houses { c with layout := some l } := by
  have hext : d.Extends d' := .of_sources_eq hsources (hsignals ▸ Nat.le_add_right _ _)
  obtain ⟨hfresh, hapart, hmem, -⟩ := h.mono hext
  refine ⟨hfresh, hapart, hmem, ?_⟩
  intro l' hl'
  obtain rfl : l = l' := Option.some.inj hl'
  refine ⟨d.nextSignal, hl, ?_, h.irq_fresh, hsignals ▸ Nat.le_refl _⟩
  intro s hs
  exact (ha.fresh s (h.sources s hs)).2

/-- What every design built from nothing satisfies. -/
structure WellFormed (d : Design) : Prop where
  allocated : d.Allocated
  houses : ∀ (m : Nat) (c : Controller), d.controllers[m]? = some c → d.Houses c

theorem Effect.wellFormed (he : d.Effect command answer d') (h : d.WellFormed) :
    d'.WellFormed := by
  refine ⟨he.allocated h.allocated, ?_⟩
  have hold : ∀ (m : Nat) (c : Controller), d.controllers[m]? = some c → d'.Houses c :=
    fun m c hc => (h.houses m c hc).mono he.extends
  cases he with
  | refused => exact hold
  | missing => exact hold
  | bank => exact hold
  | signal => exact hold
  | source => exact hold
  | handle => exact hold
  | register => exact hold
  | share => exact hold
  | controller =>
    intro m c hc
    rcases push_cases hc with ⟨-, rfl⟩ | hc
    · exact h.allocated.houses_create rfl rfl
    · exact hold m c hc
  | attach m j c s owned hc hs hfree howned =>
    intro m' c' hc'
    rcases replace_cases hc hc' with ⟨-, rfl⟩ | ⟨-, hc'⟩
    · have haccept := (h.houses m c hc).accept (Array.mem_of_getElem? hs)
        (Controller.objection?_eq_none.1 hfree).1
      exact haccept.mono (.of_sources_eq rfl (Nat.le_refl _))
    · exact hold m' c' hc'
  | finalize m c l hc hopen hunique hl =>
    intro m' c' hc'
    rcases replace_cases hc hc' with ⟨-, rfl⟩ | ⟨-, hc'⟩
    · exact (h.houses m c hc).finalize h.allocated hl rfl rfl
    · exact hold m' c' hc'

theorem wellFormed_empty : empty.WellFormed := by
  have hnone : ∀ s, s ∉ empty.sources := Array.not_mem_empty
  refine ⟨⟨?_, ?_, ?_⟩, ?_⟩
  · exact fun s hs => absurd hs (hnone s)
  · exact fun s hs => absurd hs (hnone s)
  · exact fun s hs => absurd hs (hnone s)
  · intro m c hc
    simp [empty] at hc

/-! ## Runs -/

theorem run_append (d : Design) (before after : List Command) :
    d.run (before ++ after) =
      ((d.run before).1 ++ ((d.run before).2.run after).1, ((d.run before).2.run after).2) := by
  induction before generalizing d with
  | nil => rfl
  | cons command rest ih => simp [run, ih]

theorem run_concat (d : Design) (before : List Command) (command : Command) :
    d.run (before ++ [command]) =
      ((d.run before).1 ++ [((d.run before).2.perform command).1],
        ((d.run before).2.perform command).2) := by
  rw [run_append]
  rfl

/-- What every command keeps is kept by every run. -/
theorem run_keeps {P : Design → Prop}
    (hstep : ∀ {d command answer d'}, d.Effect command answer d' → P d → P d') (h : P d)
    (commands : List Command) : P (d.run commands).2 := by
  induction commands generalizing d with
  | nil => exact h
  | cons command rest ih => exact ih (hstep (perform_effect d command) h)

/-- What holds of the empty design and is kept by every command holds after every run. -/
theorem run_invariant {P : Design → Prop} (hempty : P empty)
    (hstep : ∀ {d command answer d'}, d.Effect command answer d' → P d → P d')
    (commands : List Command) : P (empty.run commands).2 :=
  run_keeps hstep hempty commands

theorem wellFormed_run (commands : List Command) : (empty.run commands).2.WellFormed :=
  run_invariant wellFormed_empty Effect.wellFormed commands

/-- The sources of a controller, its line and later ids for the registers do not overlap. -/
theorem WellFormed.exists_placement_at (h : d.WellFormed) {m : Nat} {base : SignalId}
    (hc : d.controllers[m]? = some c)
    (hbelow : ∀ s ∈ c.roster.sources, s.base + s.signalCount ≤ base) (hirq : c.irq.id < base) :
    ∃ p : Placement, p.sources = c.roster.sources ∧ p.irq = c.irq ∧
      p.layout = Layout.synthesize c.roster.sources c.irq base := by
  obtain ⟨-, hapart, hmem, -⟩ := h.houses m c hc
  have hordered : c.roster.sources.Pairwise fun a b => a.base + a.signalCount ≤ b.base := by
    refine c.roster.ascending.imp_of_mem ?_
    intro a b ha hb hab
    exact h.allocated.apart a (hmem a ha) b (hmem b hb) hab
  exact ⟨⟨c.roster.sources, c.irq, base, hordered, hbelow, hirq,
    fun s hs => hapart s (hmem s hs)⟩, rfl, rfl, rfl⟩

/-- The layout of a finalized controller is that of a placement of its sources. -/
theorem WellFormed.exists_placement (h : d.WellFormed) {m : Nat} {l : Layout}
    (hc : d.controllers[m]? = some c) (hl : c.layout = some l) :
    ∃ p : Placement, p.sources = c.roster.sources ∧ p.irq = c.irq ∧ p.layout = l := by
  obtain ⟨base, rfl, hbelow, hirq, -⟩ := (h.houses m c hc).layout l hl
  exact h.exists_placement_at hc hbelow hirq

/-- So is the layout that finalizing an open controller would give it. -/
theorem WellFormed.exists_placement_next (h : d.WellFormed) {m : Nat}
    (hc : d.controllers[m]? = some c) :
    ∃ p : Placement, p.sources = c.roster.sources ∧ p.irq = c.irq ∧
      p.layout = Layout.synthesize c.roster.sources c.irq d.nextSignal := by
  have hhoused := h.houses m c hc
  refine h.exists_placement_at hc ?_ hhoused.irq_fresh
  intro s hs
  exact (h.allocated.fresh s (hhoused.sources s hs)).2

/-! ## A sample -/

/-- A controller with one source of each kind, attached out of order. -/
def sample : List Command :=
  [.controller, .source .pulse (some "rx") none, .source .process none none,
    .source .level (some "slot") none, .attach 0 2, .attach 0 0, .attach 0 1, .finalize 0]

def sampleController : Controller :=
  (empty.run sample).2.controllers[0]?.get (by decide +kernel)

theorem sample_controller : (empty.run sample).2.controllers[0]? = some sampleController :=
  (Option.some_get _).symm

def sampleLayout : Layout :=
  sampleController.layout.get (by decide +kernel)

theorem sample_layout : sampleController.layout = some sampleLayout :=
  (Option.some_get _).symm

end Design

end IrqSynth
