-- SUMMARY: Accepted sources may be attached in any order, with the same design as result.
import IrqSynth.Proofs.Construction

/-!
# Orders of attaching

Sources that a controller accepts one after the other may be attached in any order: they are
accepted in every order, and the design that results is the same.

Main statement: `Design.Attaches.perm`.
-/
namespace IrqSynth

theorem Ownership.insert_comm (o : Ownership) (a b : SourceId) :
    (o.taken.insert a).insert b = (o.taken.insert b).insert a := by
  apply Std.ExtTreeSet.ext_contains
  intro id
  simp only [Std.ExtTreeSet.contains_insert]
  exact Bool.or_left_comm _ _ _

namespace Controller

variable {c : Controller} {o : Ownership} {s t : Source}

theorem accept_comm (hs : s.id ∉ c.roster.ids) (ht : t.id ∉ c.roster.ids) (hne : s.id ≠ t.id) :
    (c.accept s).accept t = (c.accept t).accept s := by
  have hroster : ((c.accept s).accept t).roster = ((c.accept t).accept s).roster :=
    Roster.insert_comm hs ht hne
  have hnames : ((c.accept s).accept t).names = ((c.accept t).accept s).names := by
    unfold accept
    cases s.name with
    | none => rfl
    | some a =>
      cases t.name with
      | none => rfl
      | some b =>
        apply Std.ExtTreeSet.ext_contains
        intro name
        simp only [Std.ExtTreeSet.contains_insert]
        exact Bool.or_left_comm _ _ _
  simp only [accept, Controller.mk.injEq, true_and, and_true] at hroster hnames ⊢
  exact ⟨hroster, hnames⟩

/-- A source that meets no objection after another one meets none before it, and then the other
meets none after it. -/
theorem objection?_swap (hs : c.objection? o s = none)
    (ht : (c.accept s).objection? ⟨o.taken.insert s.id⟩ t = none) :
    c.objection? o t = none ∧ (c.accept t).objection? ⟨o.taken.insert t.id⟩ s = none ∧
      s.id ≠ t.id := by
  obtain ⟨hopen, hids, htakens, -, hnames⟩ := objection?_eq_none.1 hs
  obtain ⟨-, hidt, htakent, hroom, hnamet⟩ := objection?_eq_none.1 ht
  have hid : t.id ≠ s.id ∧ t.id ∉ c.roster.ids := by
    rwa [accept, Roster.mem_ids_insert hids, not_or] at hidt
  have htaken : o.isTaken t.id = false := by
    rw [← Bool.not_eq_true, Ownership.isTaken_insert, not_or] at htakent
    exact eq_false_of_ne_true htakent.2
  have hsize : c.roster.size + 1 < maxSources := by
    rwa [accept, Roster.size_insert hids] at hroom
  have hname (name : String) (hsome : t.name = some name) :
      s.name ≠ some name ∧ c.names.contains name = false := by
    have hfree := hnamet name hsome
    rw [← Bool.not_eq_true, contains_names_accept, not_or] at hfree
    exact ⟨hfree.1, eq_false_of_ne_true hfree.2⟩
  refine ⟨?_, ?_, Ne.symm hid.1⟩
  · exact objection?_eq_none.2 ⟨hopen, hid.2, htaken, Nat.lt_of_succ_lt hsize,
      fun name hsome => (hname name hsome).2⟩
  · refine objection?_eq_none.2 ⟨hopen, ?_, ?_, ?_, ?_⟩
    · rw [accept, Roster.mem_ids_insert hid.2, not_or]
      exact ⟨Ne.symm hid.1, hids⟩
    · rw [← Bool.not_eq_true, Ownership.isTaken_insert, not_or]
      exact ⟨Ne.symm hid.1, ne_true_of_eq_false htakens⟩
    · rw [accept, Roster.size_insert hid.2]
      exact hsize
    · intro name hsome
      rw [← Bool.not_eq_true, contains_names_accept, not_or]
      exact ⟨fun hsame => (hname name hsame).1 hsome, ne_true_of_eq_false (hnames name hsome)⟩

end Controller

namespace Design

variable {d : Design} {m j k : Nat} {js ks : List Nat} {c : Controller} {s : Source}

/-- Attaching the source at `j` to controller `m` is accepted. -/
def Accepts (d : Design) (m j : Nat) : Prop :=
  ∃ c s, d.controllers[m]? = some c ∧ d.sources[j]? = some s ∧ c.objection? d.owned s = none

theorem controllers_afterAttach (hc : d.controllers[m]? = some c) :
    (d.afterAttach m c s).controllers[m]? = some (c.accept s) :=
  (getElem?_replace _ hc).trans (if_pos rfl)

theorem afterAttach_comm {t : Source} (hs : s.id ∉ c.roster.ids) (ht : t.id ∉ c.roster.ids)
    (hne : s.id ≠ t.id) :
    (d.afterAttach m c s).afterAttach m (c.accept s) t =
      (d.afterAttach m c t).afterAttach m (c.accept t) s := by
  unfold afterAttach
  rw [Array.setIfInBounds_setIfInBounds, Array.setIfInBounds_setIfInBounds,
    Controller.accept_comm hs ht hne, Ownership.insert_comm]

theorem accepts_iff :
    d.Accepts m j ↔ ∃ ports, (d.perform (.attach m j)).1 = .attached ports := by
  constructor
  · rintro ⟨c, s, hc, hs, hfree⟩
    exact ⟨s.ports, by rw [perform_attach_eq hc hs hfree]⟩
  · rintro ⟨ports, hports⟩
    have heffect := d.perform_effect (.attach m j)
    rw [hports] at heffect
    generalize (d.perform (.attach m j)).2 = after at heffect
    cases heffect with
    | attach m j c s owned hc hs hfree => exact ⟨c, s, hc, hs, hfree⟩

/-- Sources accepted one after the other may change places. -/
theorem Accepts.swap (hj : d.Accepts m j) (hk : (d.perform (.attach m j)).2.Accepts m k) :
    d.Accepts m k ∧ (d.perform (.attach m k)).2.Accepts m j ∧
      ((d.perform (.attach m k)).2.perform (.attach m j)).2 =
        ((d.perform (.attach m j)).2.perform (.attach m k)).2 := by
  obtain ⟨c, s, hc, hs, hfree⟩ := hj
  rw [perform_attach_eq hc hs hfree] at hk ⊢
  obtain ⟨c', t, hc', ht, hfree'⟩ := hk
  obtain rfl := Option.some.inj ((controllers_afterAttach hc).symm.trans hc')
  obtain ⟨htfree, hsfree, hne⟩ := Controller.objection?_swap hfree hfree'
  have hids := (Controller.objection?_eq_none.1 hfree).2.1
  have hidt := (Controller.objection?_eq_none.1 htfree).2.1
  have hct : (d.afterAttach m c t).controllers[m]? = some (c.accept t) :=
    controllers_afterAttach hc
  rw [perform_attach_eq hc ht htfree]
  refine ⟨⟨c, t, hc, ht, htfree⟩, ⟨c.accept t, s, hct, hs, hsfree⟩, ?_⟩
  dsimp only
  rw [perform_attach_eq hc' ht hfree', perform_attach_eq hct hs hsfree]
  exact (afterAttach_comm hids hidt hne).symm

/-- The sources are accepted one after the other. -/
def Attaches (d : Design) (m : Nat) (js : List Nat) : Prop :=
  ∀ answer ∈ (d.run (js.map (.attach m))).1, ∃ ports, answer = .attached ports

theorem attaches_cons :
    d.Attaches m (j :: js) ↔ d.Accepts m j ∧ (d.perform (.attach m j)).2.Attaches m js := by
  rw [accepts_iff]
  exact List.forall_mem_cons

/-- Sources that are accepted in one order are accepted in every order, with the same result. -/
theorem Attaches.perm (h : d.Attaches m js) (hperm : js.Perm ks) :
    d.Attaches m ks ∧
      (d.run (ks.map (.attach m))).2 = (d.run (js.map (.attach m))).2 := by
  induction hperm generalizing d with
  | nil => exact ⟨h, rfl⟩
  | cons j _ ih =>
    obtain ⟨hj, hrest⟩ := attaches_cons.1 h
    obtain ⟨hrest', hrun⟩ := ih hrest
    exact ⟨attaches_cons.2 ⟨hj, hrest'⟩, hrun⟩
  | swap j k rest =>
    obtain ⟨hk, hrest⟩ := attaches_cons.1 h
    obtain ⟨hj, hrest⟩ := attaches_cons.1 hrest
    obtain ⟨hj', hk', hdesign⟩ := hk.swap hj
    rw [← hdesign] at hrest
    refine ⟨attaches_cons.2 ⟨hj', attaches_cons.2 ⟨hk', hrest⟩⟩, ?_⟩
    exact congrArg (fun d : Design => (d.run (rest.map (.attach m))).2) hdesign
  | trans _ _ ihfirst ihsecond =>
    obtain ⟨hmiddle, hfirst⟩ := ihfirst h
    obtain ⟨hlast, hsecond⟩ := ihsecond hmiddle
    exact ⟨hlast, hsecond.trans hfirst⟩

end Design

end IrqSynth
