-- SUMMARY: Fields found by name, by source and by position are the same, with the text that belongs to them.
import IrqSynth.Proofs.FieldNames

/-!
# Looking up fields

A field of a finalized controller can be asked for by its name, by its source and by its position.
The three agree, in all three registers.

Main statements: `Register.field?_eq_some` (first matches under distinct names),
`Placement.locates` (one source), `Placement.disjoint_netsOf` (two sources) and `lookups_agree`.
-/
namespace IrqSynth

/-! ## Fields of a register -/

namespace Register

variable {r : Register} {f : Field} {name : String}

/-- A field that does not share its name is the first of that name. -/
theorem field?_eq_some (hnames : (r.fields.map Field.name).Nodup) (hf : f ∈ r.fields) :
    r.field? f.name = some f := by
  obtain ⟨before, after, hfields⟩ := List.append_of_mem hf
  rw [hfields, List.map_append, List.map_cons] at hnames
  refine field?_of_first hfields fun g hg => ?_
  exact (List.nodup_append.1 hnames).2.2 g.name (List.mem_map_of_mem hg) f.name
    List.mem_cons_self

theorem field?_eq_none (h : name ∉ r.fields.map Field.name) : r.field? name = none := by
  refine List.find?_eq_none.2 fun f hf hname => h ?_
  exact List.mem_map.2 ⟨f, hf, of_decide_eq_true hname⟩

theorem fieldBit?_of_field? (h : r.field? name = some f) : r.fieldBit? name = r.bit? f.offset := by
  rw [fieldBit?, h, Option.bind_some]

theorem fieldBit?_eq_none (h : r.field? name = none) : r.fieldBit? name = none := by
  rw [fieldBit?, h, Option.bind_none]

end Register

/-! ## One source -/

/-- What a data sheet should say of the bit called `name`, which belongs to source `s`: the
description of the source in the status and pending registers if it has one, and otherwise a sentence
of the register. In the pending register it tells what triggers a source of this kind. -/
inductive Source.Described (s : Source) (name : String) : Role → String → Prop where
  | given (role : Role) (text : String) (htext : s.description = some text)
    (hrole : role ≠ .enable) : Described s name role text
  | status (hnone : s.description = none) : Described s name .status s!"Level of the `{name}` event"
  | pulse (hnone : s.description = none) (hkind : s.kind = .pulse) :
    Described s name .pending (s!"`1` if a `{name}` event occurred. " ++
      "This Event is triggered on a **rising** edge.")
  | process (hnone : s.description = none) (hkind : s.kind = .process) :
    Described s name .pending (s!"`1` if a `{name}` event occurred. " ++
      "This Event is triggered on a **falling** edge.")
  | level (hnone : s.description = none) (hkind : s.kind = .level) :
    Described s name .pending (s!"`1` if a `{name}` event occurred. " ++
      "This Event is **level triggered** when the signal is **high**.")
  | enable : Described s name .enable s!"Write a `1` to enable the `{name}` Event"

theorem Source.described (s : Source) (name : String) (role : Role) :
    s.Described name role (role.fieldText s name) := by
  cases role with
  | status =>
    rw [Role.fieldText, statusText]
    cases htext : s.description with
    | none => exact .status htext
    | some text => exact .given .status text htext (by decide)
  | pending =>
    rw [Role.fieldText, pendingText]
    cases htext : s.description with
    | none =>
      cases hkind : s.kind with
      | pulse => exact .pulse htext hkind
      | process => exact .process htext hkind
      | level => exact .level htext hkind
    | some text => exact .given .pending text htext (by decide)
  | enable => exact .enable

/-- By name and by position, layout `l` shows source `s` at bit `b`, in every register. -/
structure Layout.Locates (l : Layout) (s : Source) (b : Nat) (name : String) : Prop where
  named : l.names[b]? = some name
  field : ∀ role, ∃ f, (l.register role).field? name = some f ∧
    (l.register role).fields[b]? = some f ∧ f.offset = b ∧ s.Described name role f.description
  bit : ∀ role, ∃ signal, (l.register role).fieldBit? name = some signal ∧
    (l.register role).bit? b = some signal

/-- The nets that belong to source `s` at bit `b`. -/
def Layout.netsOf (l : Layout) (s : Source) (b : Nat) : List SignalId :=
  [Port.trigger, .status, .pending, .clear, .oldTrigger].filterMap s.net? ++
    [Role.status, .pending, .enable].flatMap fun role =>
      [Line.bit b, .written b].filterMap (l.register role).net?

/-- The bit that a net belongs to. -/
def Net.position? : Net → Option Nat
  | .irq => none
  | .port i _ => some i
  | .line _ (.bit i) => some i
  | .line _ (.written i) => some i
  | .line _ .strobe => none

namespace Placement

variable {p : Placement} {b k : Nat} {s t : Source} {x : SignalId}

theorem fields_register (p : Placement) (role : Role) : (p.layout.register role).fields =
    p.sources.mapIdx fun i s => ⟨s.fieldName i, i, role.fieldText s (s.fieldName i)⟩ := by
  rw [register_layout, Role.synthesize]

theorem getElem?_fields (hs : p.sources[b]? = some s) (role : Role) :
    (p.layout.register role).fields[b]? =
      some ⟨s.fieldName b, b, role.fieldText s (s.fieldName b)⟩ := by
  rw [fields_register, List.getElem?_mapIdx, hs, Option.map_some]

theorem names_layout (p : Placement) :
    p.layout.names = p.sources.mapIdx fun i s => s.fieldName i :=
  rfl

theorem names_fields (p : Placement) (role : Role) :
    (p.layout.register role).fields.map Field.name = p.layout.names := by
  refine List.ext_getElem? fun i => ?_
  simp only [fields_register, names_layout, List.getElem?_map, List.getElem?_mapIdx, Option.map_map]
  rfl

theorem offsets_fields (p : Placement) (role : Role) :
    (p.layout.register role).fields.map Field.offset = List.range p.sources.length := by
  refine List.ext_getElem? fun i => ?_
  simp only [fields_register, List.getElem?_map, List.getElem?_mapIdx, Option.map_map]
  grind

/-- Under distinct field names, a source is found by the name of its bit. -/
theorem locates (hnames : p.layout.names.Nodup) (hs : p.sources[b]? = some s) :
    p.layout.Locates s b (s.fieldName b) := by
  have hfield (role : Role) : (p.layout.register role).field? (s.fieldName b) =
      some ⟨s.fieldName b, b, role.fieldText s (s.fieldName b)⟩ := by
    have hdistinct := p.names_fields role ▸ hnames
    exact Register.field?_eq_some hdistinct (List.mem_of_getElem? (getElem?_fields hs role))
  refine ⟨?_, ?_, ?_⟩
  · simp only [names_layout, List.getElem?_mapIdx, hs, Option.map_some]
  · intro role
    exact ⟨_, hfield role, getElem?_fields hs role, rfl, s.described _ role⟩
  · intro role
    have hb : b < (p.layout.register role).width := by
      rw [width_register]
      exact (List.getElem?_eq_some_iff.1 hs).1
    exact ⟨_, (Register.fieldBit?_of_field? (hfield role)).trans (if_pos hb), if_pos hb⟩

/-! ## Two sources -/

theorem getElem?_names_ne (hnames : p.layout.names.Nodup) (hs : p.sources[b]? = some s)
    (hbk : b ≠ k) : p.layout.names[b]? ≠ p.layout.names[k]? := by
  have hlt : b < p.layout.names.length := by
    simpa [names_layout] using (List.getElem?_eq_some_iff.1 hs).1
  exact fun hsame => hbk ((List.getElem?_inj hlt hnames).1 hsame)

theorem exists_net_of_mem_netsOf (hs : p.sources[b]? = some s) (hx : x ∈ p.layout.netsOf s b) :
    ∃ net, p.net? net = some x ∧ net.position? = some b := by
  rcases List.mem_append.1 hx with hx | hx
  · obtain ⟨q, -, hq⟩ := List.mem_filterMap.1 hx
    exact ⟨.port b q, (net?_port hs q).trans hq, rfl⟩
  · obtain ⟨role, -, hx⟩ := List.mem_flatMap.1 hx
    obtain ⟨q, hmem, hq⟩ := List.mem_filterMap.1 hx
    refine ⟨.line role q, hq, ?_⟩
    simp only [List.mem_cons, List.not_mem_nil, or_false] at hmem
    rcases hmem with rfl | rfl <;> rfl

/-- No net belongs to two bits. -/
theorem disjoint_netsOf (hs : p.sources[b]? = some s) (ht : p.sources[k]? = some t) (hbk : b ≠ k) :
    (p.layout.netsOf s b).Disjoint (p.layout.netsOf t k) := by
  intro x hx hx'
  obtain ⟨net, hnet, hb⟩ := exists_net_of_mem_netsOf hs hx
  obtain ⟨net', hnet', hk⟩ := exists_net_of_mem_netsOf ht hx'
  obtain rfl := net?_injective hnet hnet'
  exact hbk (Option.some.inj (hb.symm.trans hk))

end Placement

/-! ## Main result -/

theorem Roster.rank?_of_getElem? {r : Roster} {b : Nat} {s : Source} (hs : r.sources[b]? = some s) :
    r.rank? s.id = some b := by
  have hid : s.id ∈ r.ids := List.mem_map_of_mem (List.mem_of_getElem? hs)
  rw [r.rank?_eq, if_pos hid, ← r.bit_eq_length_filter hs]

/-- The bit of a finalized controller's source is its position, by whichever handle it is asked for. -/
theorem Controller.bitOf_of_getElem? {c : Controller} {l : Layout} {b : Nat} {s t : Source}
    (hl : c.layout = some l) (hs : c.roster.sources[b]? = some s) (ht : t.id = s.id) :
    c.bitOf t = .ok (some b) := by
  simp only [bitOf, hl, ht, Roster.rank?_of_getElem? hs]

/-- Asked for by the name, by the source or by the position of a bit, the registers of a finalized
controller give the same field and the same signal, with the description of the handle that was
attached. Names that no bit has give none. Different sources differ in bit, name and nets. -/
theorem lookups_agree {commands : List Command} {m : Nat} {c : Controller} {l : Layout}
    (hc : (Design.empty.run commands).2.controllers[m]? = some c) (hl : c.layout = some l) :
    let sources := (Design.history commands).attached m
    (l.names.length = sources.length ∧ ∀ role, (l.register role).width = sources.length ∧
        (l.register role).fields.map Field.offset = List.range sources.length) ∧
      (∀ s ∈ sources, ∃ b name, (∀ t : Source, t.id = s.id → c.bitOf t = .ok (some b)) ∧
        sources[b]? = some s ∧ l.Locates s b name) ∧
      (∀ name, name ∉ l.names → ∀ role, (l.register role).field? name = none ∧
        (l.register role).fieldBit? name = none) ∧
      ∀ s ∈ sources, ∀ t ∈ sources, s ≠ t → ∀ b k,
        c.bitOf s = .ok (some b) → c.bitOf t = .ok (some k) →
          b ≠ k ∧ l.names[b]? ≠ l.names[k]? ∧ (l.netsOf s b).Disjoint (l.netsOf t k) := by
  have hfinal : c.isFinalized := Option.isSome_iff_exists.2 ⟨l, hl⟩
  obtain ⟨p, hsources, -, rfl⟩ := (Design.wellFormed_run commands).exists_placement hc hl
  have hnames : p.layout.names.Nodup := by
    have hunique := Design.unambiguous_run commands m c hc hfinal
    rwa [Roster.fieldNames, ← hsources] at hunique
  have hbit {s : Source} {b : Nat} (hs : p.sources[b]? = some s) (t : Source) (ht : t.id = s.id) :
      c.bitOf t = .ok (some b) := Controller.bitOf_of_getElem? hl (hsources ▸ hs) ht
  intro sources
  have hattached : sources = p.sources :=
    ((History.recorded_run commands).attached_eq hc).trans hsources.symm
  clear_value sources
  subst hattached
  refine ⟨⟨?_, ?_⟩, ?_, ?_, ?_⟩
  · rw [p.names_layout, List.length_mapIdx]
  · exact fun role => ⟨p.width_register role, p.offsets_fields role⟩
  · intro s hs
    obtain ⟨b, hb⟩ := List.mem_iff_getElem?.1 hs
    exact ⟨b, s.fieldName b, hbit hb, hb, Placement.locates hnames hb⟩
  · intro name hname role
    rw [← p.names_fields role] at hname
    have hnone := Register.field?_eq_none hname
    exact ⟨hnone, Register.fieldBit?_eq_none hnone⟩
  · intro s hs t ht hst b k hb hk
    obtain ⟨i, hi⟩ := List.mem_iff_getElem?.1 hs
    obtain ⟨j, hj⟩ := List.mem_iff_getElem?.1 ht
    obtain rfl : i = b := by simpa using (hbit hi s rfl).symm.trans hb
    obtain rfl : j = k := by simpa using (hbit hj t rfl).symm.trans hk
    have hij : i ≠ j := by
      rintro rfl
      exact hst (Option.some.inj (hi.symm.trans hj))
    exact ⟨hij, Placement.getElem?_names_ne hnames hi hij, Placement.disjoint_netsOf hi hj hij⟩

/-- The second handle to an unnamed source brings a description of its own. -/
theorem described_handle_located :
    let commands : List Command :=
      [.controller, .source .pulse (some "rx") none, .source .process none none,
        .handle 1 (some "Transfer done."), .attach 0 2, .attach 0 0, .finalize 0]
    let rx : Source := ⟨0, .pulse, some "rx", none, 1⟩
    let done : Source := ⟨1, .process, none, some "Transfer done.", 5⟩
    ∃ c l, (Design.empty.run commands).2.controllers[0]? = some c ∧ c.layout = some l ∧
      (∀ role, (l.register role).width = 2 ∧ (l.register role).fields.map Field.offset = [0, 1]) ∧
      c.bitOf rx = .ok (some 0) ∧ l.Locates rx 0 "rx" ∧
      c.bitOf done = .ok (some 1) ∧ l.Locates done 1 "event1" ∧
      (l.register .pending).field? "event1" = some ⟨"event1", 1, "Transfer done."⟩ ∧
      (∀ role, (l.register role).field? "event0" = none ∧
        (l.register role).fieldBit? "event0" = none) ∧
      (l.netsOf rx 0).Disjoint (l.netsOf done 1) := by
  intro commands rx done
  let c := (Design.empty.run commands).2.controllers[0]?.get (by decide +kernel)
  have hc : (Design.empty.run commands).2.controllers[0]? = some c := (Option.some_get _).symm
  let l := c.layout.get (by decide +kernel)
  have hl : c.layout = some l := (Option.some_get _).symm
  have hnames : l.names = ["rx", "event1"] := by decide +kernel
  have hattached : (Design.history commands).attached 0 = [rx, done] :=
    ((History.recorded_run commands).attached_eq hc).trans (by decide +kernel)
  have hagree := lookups_agree hc hl
  simp only [hattached] at hagree
  obtain ⟨⟨-, hregisters⟩, hlocated, hnone, hdistinct⟩ := hagree
  have hbits : c.bitOf rx = .ok (some 0) ∧ c.bitOf done = .ok (some 1) := by decide +kernel
  have hlocates (s : Source) (b : Nat) (name : String) (hs : s ∈ [rx, done])
      (hb : c.bitOf s = .ok (some b)) (hname : l.names[b]? = some name) : l.Locates s b name := by
    obtain ⟨i, found, hi, -, hfound⟩ := hlocated s hs
    obtain rfl : i = b := by simpa using (hi s rfl).symm.trans hb
    obtain rfl : found = name := Option.some.inj (hfound.named.symm.trans hname)
    exact hfound
  refine ⟨c, l, hc, hl, hregisters, hbits.1, hlocates rx 0 "rx" (by simp) hbits.1 (by simp [hnames]),
    hbits.2, hlocates done 1 "event1" (by simp) hbits.2 (by simp [hnames]),
    by decide +kernel, hnone "event0" (by simp [hnames]), ?_⟩
  exact (hdistinct rx (by simp) done (by simp) (by simp [rx, done]) 0 1 hbits.1 hbits.2).2.2

end IrqSynth
