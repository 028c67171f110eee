-- SUMMARY: Ownership, names and capacity as invariants of a construction.
import IrqSynth.Proofs.Construction

/-!
# Exclusive ownership

What attaching keeps true of a design: a source is taken exactly when some controller holds it, no
two controllers hold the same source, and a controller records the names of its sources, which are
distinct.

Main statement: `exclusive_run`.
-/
namespace IrqSynth

/-! ## One controller -/

/-- The names given to the sources of a roster. -/
def Roster.names (r : Roster) : List String :=
  r.sources.filterMap Source.name

namespace Controller

variable {c : Controller} {o : Ownership} {s : Source} {name : String}

/-- A controller records the names of its sources, which are distinct, and has room for them. -/
structure Orderly (c : Controller) : Prop where
  names : ∀ name, c.names.contains name ↔ name ∈ c.roster.names
  distinct : c.roster.names.Nodup
  capacity : c.roster.size ≤ maxSources

theorem orderly_create (base : SignalId) : (create base).Orderly := by
  refine ⟨?_, .nil, Nat.zero_le _⟩
  intro name
  simp [create, Roster.names, Roster.empty]

theorem perm_names_accept (h : s.id ∉ c.roster.ids) :
    (c.accept s).roster.names.Perm (s.name.toList ++ c.roster.names) := by
  have hperm := (Roster.perm_insert h).filterMap Source.name
  cases hname : s.name with
  | none => rwa [List.filterMap_cons_none hname] at hperm
  | some other => rwa [List.filterMap_cons_some hname] at hperm

theorem Orderly.accept (h : c.Orderly) (hfree : c.objection? o s = none) :
    (c.accept s).Orderly := by
  obtain ⟨-, hid, -, hroom, hname⟩ := objection?_eq_none.1 hfree
  have hperm := perm_names_accept hid
  refine ⟨?_, ?_, ?_⟩
  · intro name
    rw [contains_names_accept, h.names, hperm.mem_iff, List.mem_append, Option.mem_toList]
  · rw [hperm.nodup_iff, List.nodup_append]
    refine ⟨by cases s.name <;> simp, h.distinct, ?_⟩
    rintro name hnew _ hold rfl
    have htaken := (h.names name).2 hold
    rw [hname name (Option.mem_toList.1 hnew)] at htaken
    cases htaken
  · rw [Controller.accept, Roster.size_insert hid]
    exact hroom

end Controller

namespace Design

variable {d d' : Design} {command : Command} {answer : Answer} {m n : Nat} {c c' : Controller}
  {s : Source} {id : SourceId} {signal : SignalId}

/-! ## All controllers -/

/-- Controller `m` has the source of the given id. -/
def Holds (d : Design) (m : Nat) (id : SourceId) : Prop :=
  ∃ c, d.controllers[m]? = some c ∧ id ∈ c.roster.ids

theorem holds_iff (hc : d.controllers[m]? = some c) : d.Holds m id ↔ id ∈ c.roster.ids := by
  constructor
  · rintro ⟨c', hc', hid⟩
    obtain rfl := Option.some.inj (hc.symm.trans hc')
    exact hid
  · intro hid
    exact ⟨c, hc, hid⟩

theorem holds_congr (h : d'.controllers[m]? = d.controllers[m]?) :
    d'.Holds m id ↔ d.Holds m id := by
  rw [Holds, Holds, h]

/-- A source is taken exactly when a controller holds it, and then by that one alone. -/
structure Exclusive (d : Design) : Prop where
  taken : ∀ id, d.owned.isTaken id ↔ ∃ m, d.Holds m id
  single : ∀ m n id, d.Holds m id → d.Holds n id → m = n
  orderly : ∀ (m : Nat) (c : Controller), d.controllers[m]? = some c → c.Orderly

theorem Exclusive.of_holds_iff (h : d.Exclusive) (howned : d'.owned = d.owned)
    (hholds : ∀ m id, d'.Holds m id ↔ d.Holds m id)
    (horderly : ∀ (m : Nat) (c : Controller), d'.controllers[m]? = some c → c.Orderly) :
    d'.Exclusive := by
  refine ⟨?_, ?_, horderly⟩
  · intro id
    rw [howned, h.taken]
    exact exists_congr fun m => (hholds m id).symm
  · intro m n id hm hn
    exact h.single m n id ((hholds m id).1 hm) ((hholds n id).1 hn)

theorem Exclusive.create (h : d.Exclusive) (howned : d'.owned = d.owned)
    (hcontrollers : d'.controllers = d.controllers.push (Controller.create signal)) :
    d'.Exclusive := by
  apply h.of_holds_iff howned
  · intro m id
    rw [Holds, Holds, hcontrollers, Array.getElem?_push]
    split
    · rename_i hm
      have hempty : id ∉ (Controller.create signal).roster.ids := List.not_mem_nil
      simp [hm, hempty]
    · rfl
  · intro m c hc
    rw [hcontrollers] at hc
    rcases push_cases hc with ⟨-, rfl⟩ | hc
    · exact Controller.orderly_create signal
    · exact h.orderly m c hc

theorem Exclusive.finalize (h : d.Exclusive) (hc : d.controllers[m]? = some c) {l : Layout}
    (howned : d'.owned = d.owned)
    (hcontrollers : d'.controllers =
      d.controllers.setIfInBounds m { c with layout := some l }) : d'.Exclusive := by
  apply h.of_holds_iff howned
  · intro n id
    rw [Holds, hcontrollers, getElem?_replace _ hc]
    split
    · rename_i hm
      subst hm
      rw [holds_iff hc]
      constructor
      · rintro ⟨c', hc', hid⟩
        obtain rfl := Option.some.inj hc'
        exact hid
      · exact fun hid => ⟨_, rfl, hid⟩
    · rfl
  · intro n c' hc'
    rw [hcontrollers] at hc'
    rcases replace_cases hc hc' with ⟨-, rfl⟩ | ⟨-, hc'⟩
    · obtain ⟨hnames, hdistinct, hcapacity⟩ := h.orderly m c hc
      exact ⟨hnames, hdistinct, hcapacity⟩
    · exact h.orderly n c' hc'

theorem holds_attach (hc : d.controllers[m]? = some c) (hid : s.id ∉ c.roster.ids)
    (hcontrollers : d'.controllers = d.controllers.setIfInBounds m (c.accept s)) :
    d'.Holds n id ↔ n = m ∧ id = s.id ∨ d.Holds n id := by
  rw [Holds, hcontrollers, getElem?_replace _ hc]
  split
  · rename_i hm
    subst hm
    rw [holds_iff hc]
    constructor
    · rintro ⟨c', hc', hmem⟩
      obtain rfl := Option.some.inj hc'
      exact ((Roster.mem_ids_insert hid).1 hmem).imp_left fun heq => ⟨rfl, heq⟩
    · intro hmem
      exact ⟨_, rfl, (Roster.mem_ids_insert hid).2 (hmem.imp_left And.right)⟩
  · rename_i hm
    simp [Ne.symm hm, Holds]

theorem Exclusive.attach (h : d.Exclusive) (hc : d.controllers[m]? = some c)
    {owned : Ownership} (hfree : c.objection? d.owned s = none)
    (howned : d.owned.take? s.id = some owned) (hd : d'.owned = owned)
    (hcontrollers : d'.controllers = d.controllers.setIfInBounds m (c.accept s)) :
    d'.Exclusive := by
  obtain ⟨-, hid, -⟩ := Controller.objection?_eq_none.1 hfree
  obtain ⟨hnottaken, rfl⟩ := Ownership.take?_eq_some.1 howned
  have hholds (n : Nat) (id : SourceId) : d'.Holds n id ↔ n = m ∧ id = s.id ∨ d.Holds n id :=
    holds_attach hc hid hcontrollers
  -- nobody held the source before
  have hunheld : ∀ n, ¬d.Holds n s.id := by
    intro n hn
    rw [(h.taken s.id).2 ⟨n, hn⟩] at hnottaken
    cases hnottaken
  refine ⟨?_, ?_, ?_⟩
  · intro id
    rw [hd, Ownership.isTaken_insert, h.taken]
    constructor
    · rintro (rfl | ⟨n, hn⟩)
      · exact ⟨m, (hholds m _).2 (.inl ⟨rfl, rfl⟩)⟩
      · exact ⟨n, (hholds n id).2 (.inr hn)⟩
    · rintro ⟨n, hn⟩
      rcases (hholds n id).1 hn with ⟨-, heq⟩ | hn
      · exact .inl heq
      · exact .inr ⟨n, hn⟩
  · intro n k id hn hk
    rcases (hholds n id).1 hn with ⟨rfl, rfl⟩ | hn
    · rcases (hholds k _).1 hk with ⟨rfl, -⟩ | hk
      · rfl
      · exact absurd hk (hunheld k)
    · rcases (hholds k id).1 hk with ⟨rfl, rfl⟩ | hk
      · exact absurd hn (hunheld n)
      · exact h.single n k id hn hk
  · intro n c' hc'
    rw [hcontrollers] at hc'
    rcases replace_cases hc hc' with ⟨-, rfl⟩ | ⟨-, hc'⟩
    · exact (h.orderly m c hc).accept hfree
    · exact h.orderly n c' hc'

theorem Effect.exclusive (he : d.Effect command answer d') (h : d.Exclusive) : d'.Exclusive := by
  have hsame (howned : d'.owned = d.owned) (hcontrollers : d'.controllers = d.controllers) :
      d'.Exclusive :=
    h.of_holds_iff howned (fun m id => holds_congr (hcontrollers ▸ rfl))
      (hcontrollers ▸ h.orderly)
  cases he with
  | refused => exact h
  | missing => exact h
  | bank => exact h
  | signal => exact hsame rfl rfl
  | source => exact hsame rfl rfl
  | handle => exact hsame rfl rfl
  | register => exact hsame rfl rfl
  | share => exact hsame rfl rfl
  | controller => exact h.create rfl rfl
  | attach m j c s owned hc hs hfree howned => exact h.attach hc hfree howned rfl rfl
  | finalize m c l hc => exact h.finalize hc rfl rfl

theorem exclusive_empty : empty.Exclusive := by
  have hnone : ∀ m id, ¬empty.Holds m id := by
    rintro m id ⟨c, hc, -⟩
    simp [empty] at hc
  refine ⟨?_, ?_, ?_⟩
  · intro id
    have htaken : empty.owned.isTaken id = false := Ownership.isTaken_empty id
    rw [htaken]
    simp [hnone]
  · exact fun m n id hm => absurd hm (hnone m id)
  · intro m c hc
    simp [empty] at hc

/-- No run of commands brings a source to two controllers. -/
theorem exclusive_run (commands : List Command) : (empty.run commands).2.Exclusive :=
  run_invariant exclusive_empty Effect.exclusive commands

end Design

end IrqSynth
