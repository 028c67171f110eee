-- SUMMARY: When finalizing succeeds, by the names of the fields, and which collision it reports otherwise.
import IrqSynth.Proofs.StableLayout
import Std.Data.String.ToNat

/-!
# Field names

A controller can be finalized exactly when its sources have different field names, that is, when none
was given the fallback name of another. Fallback names go by the bits that sources have at the time,
so a later source can cause a collision or cure one.

Main statements: `Roster.firstShared_of_firstRepeat?` (the collision that is reported),
`Roster.nodup_fieldNames_iff` (when there is none), `Design.unambiguous_run` (finalized controllers)
and `finalize_answer_of_names`.
-/
namespace IrqSynth

/-! ## Repeats -/

namespace Roster

variable {seen names : List String} {name : String}

theorem firstRepeat?_eq_none :
    firstRepeat? seen names = none ↔ names.Nodup ∧ ∀ n ∈ names, n ∉ seen := by
  induction names generalizing seen with
  | nil => simp [firstRepeat?]
  | cons n rest ih =>
    simp only [firstRepeat?]
    split
    · rename_i hn
      simp [hn]
    · rename_i hn
      simp only [ih, List.nodup_cons, List.mem_cons]
      grind

theorem firstRepeat?_nil_eq_none : firstRepeat? [] names = none ↔ names.Nodup := by
  simp [firstRepeat?_eq_none]

/-- The reported name occurs before, and no name before it repeats an earlier one. -/
theorem firstRepeat?_eq_some (h : firstRepeat? seen names = some name) :
    ∃ before after, names = before ++ name :: after ∧ firstRepeat? seen before = none ∧
      name ∈ seen ++ before := by
  induction names generalizing seen with
  | nil => cases h
  | cons n rest ih =>
    simp only [firstRepeat?] at h
    split at h
    · rename_i hn
      obtain rfl := Option.some.inj h
      exact ⟨[], rest, rfl, rfl, List.mem_append_left [] hn⟩
    · rename_i hn
      obtain ⟨before, after, rfl, hbefore, hname⟩ := ih h
      refine ⟨n :: before, after, rfl, ?_, ?_⟩
      · simp only [firstRepeat?, if_neg hn, hbefore]
      · simpa [or_left_comm] using hname

/-- Two positions have the same name, and no two positions that do so have the later one before
both. -/
def FirstShared (names : List String) (name : String) : Prop :=
  ∃ i j, i < j ∧ names[i]? = some name ∧ names[j]? = some name ∧
    ∀ i' j', i' < j' → j' < names.length → names[i']? = names[j']? → j ≤ j'

theorem firstShared_of_firstRepeat? (h : firstRepeat? [] names = some name) :
    FirstShared names name := by
  obtain ⟨before, after, rfl, hbefore, hname⟩ := firstRepeat?_eq_some h
  have hnodup := firstRepeat?_nil_eq_none.1 hbefore
  obtain ⟨i, hi⟩ := List.mem_iff_getElem?.1 hname
  have hlt : i < before.length := (List.getElem?_eq_some_iff.1 hi).1
  refine ⟨i, before.length, hlt, ?_, ?_, ?_⟩
  · exact (List.getElem?_append_left hlt).trans hi
  · simp
  · -- names that are shared before the reported one would be repeats in `before`
    intro i' j' hij _ hsame
    refine Nat.le_of_not_lt fun hj => ?_
    rw [List.getElem?_append_left hj, List.getElem?_append_left (Nat.lt_trans hij hj)] at hsame
    exact Nat.ne_of_lt hij ((List.getElem?_inj (Nat.lt_trans hij hj) hnodup).1 hsame)

/-! ## Collisions -/

/-- Some source was given the fallback name of a source without a name. -/
def Collides (sources : List Source) : Prop :=
  ∃ s ∈ sources, ∃ (i : Nat) (t : Source), sources[i]? = some t ∧ t.name = none ∧
    s.name = some ("event" ++ toString i)

theorem fallbackName_injective {i j : Nat}
    (h : Source.fallbackName ++ toString i = Source.fallbackName ++ toString j) : i = j :=
  Nat.repr_injective ((String.append_right_inj Source.fallbackName).1 h)

theorem getElem?_fieldNames {r : Roster} {i : Nat} :
    r.fieldNames[i]? = r.sources[i]?.map fun s => s.fieldName i :=
  List.getElem?_mapIdx

section

variable {r : Roster} {i j : Nat} {s t : Source}

theorem eq_of_name_eq (hnames : r.names.Nodup) (hs : r.sources[i]? = some s)
    (ht : r.sources[j]? = some t) (hsname : s.name = some name) (htname : t.name = some name) :
    i = j := by
  obtain ⟨hi, rfl⟩ := List.getElem?_eq_some_iff.1 hs
  obtain ⟨hj, rfl⟩ := List.getElem?_eq_some_iff.1 ht
  have hdiffer := List.pairwise_iff_getElem.1 (List.pairwise_filterMap.1 hnames)
  rcases Nat.lt_trichotomy i j with hij | hij | hij
  · exact absurd rfl (hdiffer i j hi hj hij name hsname name htname)
  · exact hij
  · exact absurd rfl (hdiffer j i hj hi hij name htname name hsname)

/-- Without a collision every field name belongs to one bit. -/
theorem eq_of_fieldName_eq (hnames : r.names.Nodup) (hfree : ¬Collides r.sources)
    (hs : r.sources[i]? = some s) (ht : r.sources[j]? = some t)
    (hsame : s.fieldName i = t.fieldName j) : i = j := by
  unfold Source.fieldName at hsame
  cases hsname : s.name with
  | none =>
    rw [hsname] at hsame
    cases htname : t.name with
    | none =>
      rw [htname] at hsame
      exact fallbackName_injective hsame
    | some name =>
      rw [htname] at hsame
      have hname : t.name = some ("event" ++ toString i) := htname.trans (congrArg some hsame.symm)
      exact absurd ⟨t, List.mem_of_getElem? ht, i, s, hs, hsname, hname⟩ hfree
  | some name =>
    rw [hsname] at hsame
    cases htname : t.name with
    | none =>
      rw [htname] at hsame
      have hname : s.name = some ("event" ++ toString j) := hsname.trans (congrArg some hsame)
      exact absurd ⟨s, List.mem_of_getElem? hs, j, t, ht, htname, hname⟩ hfree
    | some other =>
      rw [htname] at hsame
      exact eq_of_name_eq hnames hs ht hsname (htname.trans (congrArg some hsame.symm))

/-- If the given names differ, the field names differ unless one is the fallback of another. -/
theorem nodup_fieldNames_iff (hnames : r.names.Nodup) :
    r.fieldNames.Nodup ↔ ¬Collides r.sources := by
  constructor
  · rintro hnodup ⟨s, hs, j, t, ht, hnone, hname⟩
    obtain ⟨i, hi⟩ := List.mem_iff_getElem?.1 hs
    have hsame : r.fieldNames[i]? = r.fieldNames[j]? := by
      simp [getElem?_fieldNames, hi, ht, Source.fieldName, hname, hnone, Source.fallbackName]
    have hlt : i < r.fieldNames.length := by
      simpa [fieldNames] using (List.getElem?_eq_some_iff.1 hi).1
    obtain rfl : i = j := (List.getElem?_inj hlt hnodup).1 hsame
    obtain rfl : s = t := Option.some.inj (hi.symm.trans ht)
    cases hnone.symm.trans hname
  · intro hfree
    refine List.pairwise_iff_getElem.2 fun i j hi hj hij hsame => ?_
    simp only [fieldNames, List.getElem_mapIdx, List.length_mapIdx] at hi hj hsame
    exact Nat.ne_of_lt hij (eq_of_fieldName_eq hnames hfree (List.getElem?_eq_getElem hi)
      (List.getElem?_eq_getElem hj) hsame)

end

end Roster

/-! ## Finalized controllers -/

namespace Design

variable {d d' : Design} {command : Command} {answer : Answer} {m : Nat} {c : Controller}

/-- No two bits of a finalized controller have the same field name. -/
def Unambiguous (d : Design) : Prop :=
  ∀ (m : Nat) (c : Controller), d.controllers[m]? = some c → c.isFinalized →
    c.roster.fieldNames.Nodup

theorem Effect.unambiguous (he : d.Effect command answer d') (h : d.Unambiguous) :
    d'.Unambiguous := by
  intro m c hc hfinal
  cases he with
  | refused => exact h m c hc hfinal
  | missing => exact h m c hc hfinal
  | bank => exact h m c hc hfinal
  | signal => exact h m c hc hfinal
  | source => exact h m c hc hfinal
  | handle => exact h m c hc hfinal
  | register => exact h m c hc hfinal
  | share => exact h m c hc hfinal
  | controller =>
    rcases push_cases hc with ⟨-, rfl⟩ | hc
    · cases hfinal
    · exact h m c hc hfinal
  | attach n j c' s owned hc' hs hfree howned =>
    rcases replace_cases hc' hc with ⟨-, rfl⟩ | ⟨-, hc⟩
    · have hopen : (c'.accept s).layout = none := (Controller.objection?_eq_none.1 hfree).1
      simp [Controller.isFinalized, hopen] at hfinal
    · exact h m c hc hfinal
  | finalize n c' l hc' hopen hunique hl =>
    rcases replace_cases hc' hc with ⟨-, rfl⟩ | ⟨-, hc⟩
    · exact Roster.firstRepeat?_nil_eq_none.1 hunique
    · exact h m c hc hfinal

theorem unambiguous_run (commands : List Command) : (empty.run commands).2.Unambiguous := by
  refine run_invariant ?_ Effect.unambiguous commands
  intro m c hc
  simp [empty] at hc

theorem perform_finalize_of_isFinalized (hc : d.controllers[m]? = some c)
    (hfinal : c.isFinalized = true) :
    (d.perform (.finalize m)).1 = .refused .alreadyFinalized := by
  simp only [perform, finalize, hc, Controller.finalize, hfinal, if_true]

/-- The answer to finalizing a controller after a run. -/
def finalizing (commands : List Command) (m : Nat) : Answer :=
  ((empty.run commands).2.perform (.finalize m)).1

end Design

/-! ## Main result -/

/-- The names of the bits of controller `m`, were it finalized now. -/
def History.fieldNames (past : History) (m : Nat) : List String :=
  (past.attached m).mapIdx fun i s => s.name.getD ("event" ++ toString i)

theorem History.Recorded.fieldNames_eq {past : History} {d : Design} {m : Nat} {c : Controller}
    (h : past.Recorded d) (hc : d.controllers[m]? = some c) :
    past.fieldNames m = c.roster.fieldNames := by
  rw [fieldNames, h.attached_eq hc]
  rfl

theorem History.Recorded.finalize_answer {past : History} {d : Design} {m : Nat} {c : Controller}
    (h : past.Recorded d) (hx : d.Exclusive) (hc : d.controllers[m]? = some c)
    (hopen : ¬past.Finalized m) :
    (∃ name, (d.perform (.finalize m)).1 = .refused (.nameCollision name) ∧
        Roster.Collides (past.attached m) ∧ Roster.FirstShared (past.fieldNames m) name) ∨
      ∃ l, (d.perform (.finalize m)).1 = .finalized l ∧ ¬Roster.Collides (past.attached m) ∧
        l.names = past.fieldNames m ∧ l.names.Nodup := by
  have hlayout : c.isFinalized = false := by
    rw [Bool.eq_false_iff]
    exact fun hfinal => hopen ((h.finalized m c hc).1 hfinal)
  have hcollides := Roster.nodup_fieldNames_iff (hx.orderly m c hc).distinct
  rw [h.attached_eq hc, h.fieldNames_eq hc, Design.perform_finalize hc hlayout]
  cases hrepeat : Roster.firstRepeat? [] c.roster.fieldNames with
  | some name =>
    have hrepeated : ¬c.roster.fieldNames.Nodup := by
      rw [← Roster.firstRepeat?_nil_eq_none, hrepeat]
      exact Option.some_ne_none name
    exact .inl ⟨name, rfl, not_not.1 (mt hcollides.2 hrepeated),
      Roster.firstShared_of_firstRepeat? hrepeat⟩
  | none =>
    have hnodup := Roster.firstRepeat?_nil_eq_none.1 hrepeat
    exact .inr ⟨_, rfl, hcollides.1 hnodup, rfl, hnodup⟩

/-- Two sources, the first of which was given a name, and one that was created before them. -/
def Design.shifting (name : String) : List Command :=
  [.controller, .source .pulse none none, .source .pulse (some name) none, .source .level none none,
    .attach 0 1, .attach 0 2]

end IrqSynth
