-- SUMMARY: Layouts for sources of the same kinds agree up to a renaming of nets.
import IrqSynth.Proofs.Wiring

/-!
# Renamed layouts

The logic of a layout depends on the kinds of its sources alone, but for the ids of its nets: two
placements of sources of the same kinds have the same logic under the renaming that maps each net to
the net of the same name.

Main statements: `Placement.exists_renames` and `Placement.Renames.logic`.
-/
namespace IrqSynth

/-! ## Lists that agree by key -/

section

variable {l l' : List Source} {α β γ : Type} {key : Source → α}

theorem getElem?_cases_of_map_eq (h : l.map key = l'.map key) (i : Nat) :
    l[i]? = none ∧ l'[i]? = none ∨
      ∃ s t, l[i]? = some s ∧ l'[i]? = some t ∧ key t = key s := by
  have hat := congrArg (fun keys => keys[i]?) h
  simp only [List.getElem?_map] at hat
  cases hl : l[i]? with
  | none =>
    rw [hl, Option.map_none, eq_comm, Option.map_eq_none_iff] at hat
    exact .inl ⟨rfl, hat⟩
  | some s =>
    rw [hl, Option.map_some, eq_comm, Option.map_eq_some_iff] at hat
    obtain ⟨t, ht, hkey⟩ := hat
    exact .inr ⟨s, t, rfl, ht, hkey⟩

theorem mapIdx_of_map_eq (h : l.map key = l'.map key) {e : Nat → Source → β}
    {f : Nat → Source → γ} {k : β → γ}
    (hef : ∀ (i : Nat) (s t : Source), l[i]? = some s → l'[i]? = some t → key t = key s →
      f i t = k (e i s)) : l'.mapIdx f = (l.mapIdx e).map k := by
  apply List.ext_getElem?
  intro i
  rw [List.getElem?_map, List.getElem?_mapIdx, List.getElem?_mapIdx]
  rcases getElem?_cases_of_map_eq h i with ⟨hl, hl'⟩ | ⟨s, t, hs, ht, hkey⟩
  · rw [hl, hl']
    rfl
  · rw [hs, ht, Option.map_some, Option.map_some, Option.map_some, hef i s t hs ht hkey]

end

namespace Source

variable {s t : Source} {g : SignalId → SignalId} {q : Port}

theorem isSome_net?_congr (hk : t.kind = s.kind) : (t.net? q).isSome = (s.net? q).isSome := by
  cases q with
  | trigger => rfl
  | status => rfl
  | pending => rfl
  | clear => rfl
  | oldTrigger => cases hkind : s.kind <;> simp [net?, hk, hkind]

/-- The logic of a source on other nets. -/
theorem logic_eq_rename (hk : t.kind = s.kind) (hg : ∀ q, t.net? q = (s.net? q).map g) :
    t.logic = s.logic.rename g := by
  have htrigger : t.trigger.id = g s.trigger.id := Option.some.inj (hg .trigger)
  have hstatus : t.status.id = g s.status.id := Option.some.inj (hg .status)
  have hpending : t.pending.id = g s.pending.id := Option.some.inj (hg .pending)
  have hclear : t.clear.id = g s.clear.id := Option.some.inj (hg .clear)
  cases hkind : s.kind with
  | pulse =>
    simp [logic, fires, acknowledge, latch, Signal.drive, Fragment.rename, Stmt.renameAll,
      Stmt.rename, Expr.rename, hk, hkind, htrigger, hstatus, hpending, hclear]
  | process =>
    have hold : t.oldTrigger.id = g s.oldTrigger.id := by
      have hport := hg .oldTrigger
      simp only [net?, hk, hkind, if_true, Option.map_some, Option.some.injEq] at hport
      exact hport
    simp [logic, fires, acknowledge, latch, Signal.drive, Fragment.rename, Stmt.renameAll,
      Stmt.rename, Expr.rename, hk, hkind, htrigger, hstatus, hpending, hclear, hold]
  | level =>
    simp [logic, Signal.drive, Fragment.rename, Stmt.renameAll, Stmt.rename, Expr.rename, hk,
      hkind, htrigger, hstatus, hpending]

end Source

namespace Placement

variable {p q : Placement} {g : SignalId → SignalId} {i : Nat} {s t : Source} {n m : Net}
  {x y : SignalId}

/-! ## Sources of the same kinds -/

/-- The placements have sources of the same kinds in the same order. -/
def SameKinds (p q : Placement) : Prop :=
  p.sources.map Source.kind = q.sources.map Source.kind

theorem SameKinds.length (h : p.SameKinds q) : p.sources.length = q.sources.length := by
  have hlength := congrArg List.length h
  rwa [List.length_map, List.length_map] at hlength

theorem SameKinds.isSome_net? (h : p.SameKinds q) (n : Net) :
    (q.net? n).isSome = (p.net? n).isSome := by
  cases n with
  | irq => rfl
  | port i r =>
    rcases getElem?_cases_of_map_eq h i with ⟨hp, hq⟩ | ⟨s, t, hs, ht, hk⟩
    · simp [net?, Layout.net?, hp, hq]
    · rw [net?_port hs, net?_port ht]
      exact Source.isSome_net?_congr hk
  | line role r =>
    cases r with
    | bit i => simp [net?, Layout.net?, Register.net?, Register.bit?, apply_ite, h.length]
    | written i => simp [net?, Layout.net?, Register.net?, Register.written?, apply_ite, h.length]
    | strobe => rfl

/-! ## Renaming nets -/

/-- `g` maps every net of `p` to the net of `q` that has the same name. -/
def Renames (p q : Placement) (g : SignalId → SignalId) : Prop :=
  ∀ n, q.net? n = (p.net? n).map g

open Classical in
theorem SameKinds.exists_renames (h : p.SameKinds q) : ∃ g, p.Renames q g := by
  -- each net of `p` has one name, and `q` has a net of that name
  refine ⟨fun x => if hx : ∃ n, p.net? n = some x then (q.net? hx.choose).getD x else x, ?_⟩
  intro n
  have hsome := h.isSome_net? n
  cases hp : p.net? n with
  | none =>
    rw [hp, Option.isSome_none, Option.isSome_eq_false_iff, Option.isNone_iff_eq_none] at hsome
    exact hsome
  | some x =>
    have hx : ∃ n, p.net? n = some x := ⟨n, hp⟩
    have hname : hx.choose = n := net?_injective hx.choose_spec hp
    rw [hp, Option.isSome_some, Option.isSome_iff_exists] at hsome
    obtain ⟨y, hy⟩ := hsome
    rw [Option.map_some, dif_pos hx, hname, hy, Option.getD_some]

/-- Different nets stay different. -/
theorem Renames.injective (h : p.Renames q g) (hn : p.net? n = some x) (hm : p.net? m = some y)
    (hxy : g x = g y) : x = y := by
  have hqn := h n
  have hqm := h m
  rw [hn, Option.map_some] at hqn
  rw [hm, Option.map_some, ← hxy] at hqm
  obtain rfl := net?_injective hqn hqm
  exact Option.some.inj (hn.symm.trans hm)

theorem Renames.eq (h : p.Renames q g) (hp : p.net? n = some x) (hq : q.net? n = some y) :
    y = g x := by
  have hrenamed := h n
  rw [hp, hq] at hrenamed
  exact Option.some.inj hrenamed

theorem Renames.bit (h : p.Renames q g) (hkinds : p.SameKinds q) (role : Role)
    (hi : i < p.sources.length) :
    ((q.layout.register role).bit i).id = g ((p.layout.register role).bit i).id :=
  h.eq (net?_bit role hi) (net?_bit role (hkinds.length ▸ hi))

theorem Renames.written (h : p.Renames q g) (hkinds : p.SameKinds q) (role : Role)
    (hi : i < p.sources.length) :
    ((q.layout.register role).written i).id = g ((p.layout.register role).written i).id :=
  h.eq (net?_written role hi) (net?_written role (hkinds.length ▸ hi))

theorem Renames.strobe (h : p.Renames q g) (role : Role) :
    (q.layout.register role).strobe.id = g (p.layout.register role).strobe.id :=
  h.eq (n := .line role .strobe) rfl rfl

theorem Renames.source (h : p.Renames q g) (hs : p.sources[i]? = some s)
    (ht : q.sources[i]? = some t) (r : Port) : t.net? r = (s.net? r).map g := by
  rw [← net?_port hs, ← net?_port ht]
  exact h (.port i r)

/-! ## Renaming logic -/

theorem Renames.concat_logic (h : p.Renames q g) (hkinds : p.SameKinds q) :
    Fragment.concat (q.sources.map Source.logic) =
      (Fragment.concat (p.sources.map Source.logic)).rename g := by
  rw [Fragment.rename_concat, List.map_map]
  congr 1
  apply List.ext_getElem?
  intro i
  rw [List.getElem?_map, List.getElem?_map]
  rcases getElem?_cases_of_map_eq hkinds i with ⟨hp, hq⟩ | ⟨s, t, hs, ht, hk⟩
  · rw [hp, hq]
    rfl
  · rw [hs, ht, Option.map_some, Option.map_some,
      Source.logic_eq_rename hk (h.source hs ht)]
    rfl

theorem Renames.enable_logic (h : p.Renames q g) (hkinds : p.SameKinds q) :
    q.layout.enable.logic = p.layout.enable.logic.rename g := by
  have hcapture : q.layout.enable.capture = Stmt.renameAll g p.layout.enable.capture := by
    have hwidth (r : Placement) : r.layout.enable.width = r.sources.length :=
      r.width_register .enable
    rw [Stmt.renameAll_eq_map, Register.capture, Register.capture, hwidth, hwidth, hkinds.length,
      List.map_map]
    apply List.map_congr_left
    intro i hi
    have hlt : i < p.sources.length := hkinds.length ▸ List.mem_range.1 hi
    have hbit : (q.layout.enable.bit i).id = g (p.layout.enable.bit i).id :=
      h.bit hkinds .enable hlt
    have hwritten : (q.layout.enable.written i).id = g (p.layout.enable.written i).id :=
      h.written hkinds .enable hlt
    simp [Signal.drive, Stmt.rename, Expr.rename, hbit, hwritten]
  have hstrobe : q.layout.enable.strobe.id = g p.layout.enable.strobe.id := h.strobe .enable
  have hlogic (r : Placement) : r.layout.enable.logic =
      ⟨[], [.guard (.signal r.layout.enable.strobe.id) r.layout.enable.capture]⟩ := rfl
  rw [hlogic, hlogic, hcapture, hstrobe]
  rfl

theorem Renames.wire (h : p.Renames q g) (hkinds : p.SameKinds q) (hs : p.sources[i]? = some s)
    (ht : q.sources[i]? = some t) :
    Layout.wire q.layout.status q.layout.pending i t =
      Stmt.renameAll g (Layout.wire p.layout.status p.layout.pending i s) := by
  have hlt := lt_length hs
  have hstatus : t.status.id = g s.status.id := Option.some.inj (h.source hs ht .status)
  have hpending : t.pending.id = g s.pending.id := Option.some.inj (h.source hs ht .pending)
  have hclear : t.clear.id = g s.clear.id := Option.some.inj (h.source hs ht .clear)
  have hstatusBit : (q.layout.status.bit i).id = g (p.layout.status.bit i).id :=
    h.bit hkinds .status hlt
  have hpendingBit : (q.layout.pending.bit i).id = g (p.layout.pending.bit i).id :=
    h.bit hkinds .pending hlt
  have hwritten : (q.layout.pending.written i).id = g (p.layout.pending.written i).id :=
    h.written hkinds .pending hlt
  have hstrobe : q.layout.pending.strobe.id = g p.layout.pending.strobe.id := h.strobe .pending
  simp [Layout.wire, Signal.drive, Stmt.renameAll, Stmt.rename, Expr.rename, hstatus, hpending,
    hclear, hstatusBit, hpendingBit, hwritten, hstrobe]

theorem Renames.asserted (h : p.Renames q g) (hkinds : p.SameKinds q) :
    Layout.asserted q.layout.pending q.layout.enable q.sources.length =
      (Layout.asserted p.layout.pending p.layout.enable p.sources.length).rename g := by
  rw [Layout.asserted, Layout.asserted, Expr.rename_disjunction, List.map_map, ← hkinds.length]
  congr 1
  apply List.map_congr_left
  intro i hi
  have hpending : (q.layout.pending.bit i).id = g (p.layout.pending.bit i).id :=
    h.bit hkinds .pending (List.mem_range.1 hi)
  have henable : (q.layout.enable.bit i).id = g (p.layout.enable.bit i).id :=
    h.bit hkinds .enable (List.mem_range.1 hi)
  simp [Expr.rename, hpending, henable]

/-- The logic of a placement in its parts. -/
theorem logic_layout (p : Placement) : p.layout.logic =
    Fragment.concat (p.sources.map Source.logic) ++ p.layout.enable.logic ++
      ⟨(p.sources.mapIdx (Layout.wire p.layout.status p.layout.pending)).flatten ++
        [p.irq.drive (Layout.asserted p.layout.pending p.layout.enable p.sources.length)], []⟩ :=
  rfl

/-- Placements of sources of the same kinds have the same logic but for the ids of their nets. -/
theorem Renames.logic (h : p.Renames q g) (hkinds : p.SameKinds q) :
    q.layout.logic = p.layout.logic.rename g := by
  have hwires : (q.sources.mapIdx (Layout.wire q.layout.status q.layout.pending)).flatten =
      Stmt.renameAll g
        (p.sources.mapIdx (Layout.wire p.layout.status p.layout.pending)).flatten := by
    rw [Stmt.renameAll_flatten]
    congr 1
    exact mapIdx_of_map_eq hkinds fun i s t hs ht _ => h.wire hkinds hs ht
  have hirq : q.irq.id = g p.irq.id := Option.some.inj (h .irq)
  rw [logic_layout, logic_layout, h.concat_logic hkinds, h.enable_logic hkinds, hwires,
    h.asserted hkinds, Fragment.rename_append, Fragment.rename_append]
  congr 1
  simp [Fragment.rename, Stmt.renameAll_append, Stmt.renameAll, Stmt.rename, Signal.drive, hirq]

end Placement

end IrqSynth
