-- SUMMARY: Statement lists as flat lists of guarded assignments, and the last active one for a net.
import IrqSynth.Levels
import IrqSynth.Logic.Stmt

/-!
# Assignments

A statement list read as a flat list of assignments, each with the conditions that enclose it. What
a list does to a net is decided by the last assignment to it whose conditions all hold.

Main statements: `targetsAll_eq_map` (flattening loses no driven net) and `get?_applyAll` (the last
active assignment wins).
-/
namespace IrqSynth

/-- An assignment under the conditions that enclose it, the outermost first. -/
structure Assignment where
  guards : List Expr
  target : SignalId
  value : Expr
  deriving DecidableEq, Repr

namespace Assignment

/-- The assignment under one more condition. -/
def under (c : Expr) (a : Assignment) : Assignment :=
  { a with guards := c :: a.guards }

/-- All enclosing conditions hold. -/
def active (ρ : SignalId → Bool) (a : Assignment) : Bool :=
  a.guards.all fun c => c.eval ρ

/-- The nets that decide whether and what the assignment assigns. -/
def reads (a : Assignment) : List SignalId :=
  a.guards.flatMap Expr.reads ++ a.value.reads

/-- The value of the last active assignment to net `s`, if there is one. -/
def lastActive? (ρ : SignalId → Bool) (as : List Assignment) (s : SignalId) : Option Bool :=
  (as.filter fun a => a.target = s && a.active ρ).getLast?.map fun a => a.value.eval ρ

/-- Performs the active assignments in order. -/
def applyAll (ρ : SignalId → Bool) (as : List Assignment) (v : Levels) : Levels :=
  as.foldl (fun v a => if a.active ρ then v.set a.target (a.value.eval ρ) else v) v

@[simp] theorem active_under (ρ : SignalId → Bool) (c : Expr) (a : Assignment) :
    (a.under c).active ρ = (c.eval ρ && a.active ρ) :=
  rfl

theorem active_congr {ρ σ : SignalId → Bool} {a : Assignment} (h : ∀ t ∈ a.reads, ρ t = σ t) :
    a.active ρ = a.active σ := by
  rw [Bool.eq_iff_iff, active, active, List.all_eq_true, List.all_eq_true]
  have hguard : ∀ c ∈ a.guards, c.eval ρ = c.eval σ := by
    intro c hc
    apply Expr.eval_congr
    intro t ht
    exact h t (List.mem_append_left _ (List.mem_flatMap_of_mem hc ht))
  constructor
  · intro hall c hc
    rw [← hguard c hc]
    exact hall c hc
  · intro hall c hc
    rw [hguard c hc]
    exact hall c hc

theorem eval_value_congr {ρ σ : SignalId → Bool} {a : Assignment}
    (h : ∀ t ∈ a.reads, ρ t = σ t) : a.value.eval ρ = a.value.eval σ :=
  Expr.eval_congr fun t ht => h t (List.mem_append_right _ ht)

theorem applyAll_cons (ρ : SignalId → Bool) (a : Assignment) (as : List Assignment) (v : Levels) :
    applyAll ρ (a :: as) v =
      applyAll ρ as (if a.active ρ then v.set a.target (a.value.eval ρ) else v) :=
  rfl

theorem applyAll_append (ρ : SignalId → Bool) (as bs : List Assignment) (v : Levels) :
    applyAll ρ (as ++ bs) v = applyAll ρ bs (applyAll ρ as v) := by
  simp [applyAll]

/-- Under a condition, all assignments are performed or none. -/
theorem applyAll_under (ρ : SignalId → Bool) (c : Expr) (as : List Assignment) (v : Levels) :
    applyAll ρ (as.map (under c)) v = if c.eval ρ then applyAll ρ as v else v := by
  induction as generalizing v with
  | nil => simp [applyAll]
  | cons a rest ih =>
    rw [List.map_cons, applyAll_cons, ih, applyAll_cons, active_under]
    cases c.eval ρ <;> simp [under]

theorem lastActive?_cons (ρ : SignalId → Bool) (a : Assignment) (as : List Assignment)
    (s : SignalId) :
    lastActive? ρ (a :: as) s =
      (lastActive? ρ as s).or
        (if a.target = s ∧ a.active ρ then some (a.value.eval ρ) else none) := by
  simp only [lastActive?, List.filter_cons]
  by_cases h : a.target = s ∧ a.active ρ
  · simp only [h, and_self, decide_true, Bool.and_self, if_true, List.getLast?_cons]
    cases (as.filter fun a => a.target = s && a.active ρ).getLast? <;> rfl
  · have out : (decide (a.target = s) && a.active ρ) = false := by simpa using h
    simp [h, out]

theorem lastActive?_append (ρ : SignalId → Bool) (as bs : List Assignment) (s : SignalId) :
    lastActive? ρ (as ++ bs) s = (lastActive? ρ bs s).or (lastActive? ρ as s) := by
  simp only [lastActive?, List.filter_append, List.getLast?_append]
  cases (bs.filter fun a => a.target = s && a.active ρ).getLast? <;> simp

/-- There is no last active assignment to a net if no assignment to it is active. -/
theorem lastActive?_eq_none_iff {ρ : SignalId → Bool} {as : List Assignment} {s : SignalId} :
    lastActive? ρ as s = none ↔ ∀ a ∈ as, a.target = s → a.active ρ = false := by
  rw [lastActive?, Option.map_eq_none_iff, List.getLast?_eq_none_iff, List.filter_eq_nil_iff]
  simp

theorem lastActive?_eq_none {ρ : SignalId → Bool} {as : List Assignment} {s : SignalId}
    (h : ∀ a ∈ as, a.target ≠ s) : lastActive? ρ as s = none :=
  lastActive?_eq_none_iff.2 fun a ha htarget => absurd htarget (h a ha)

/-- An active assignment is the last one if none that follows it is active for the same net. -/
theorem lastActive?_of_append_cons {ρ : SignalId → Bool} {before after : List Assignment}
    {a : Assignment} (hactive : a.active ρ)
    (hlast : ∀ b ∈ after, b.target = a.target → b.active ρ = false) :
    lastActive? ρ (before ++ a :: after) a.target = some (a.value.eval ρ) := by
  rw [lastActive?_append, lastActive?_cons, lastActive?_eq_none_iff.2 hlast,
    if_pos ⟨rfl, hactive⟩, Option.none_or, Option.some_or]

/-- Which assignment is the last active one depends on what the assignments to that net read. -/
theorem lastActive?_congr {ρ σ : SignalId → Bool} {as : List Assignment} {s : SignalId}
    (h : ∀ a ∈ as, a.target = s → ∀ t ∈ a.reads, ρ t = σ t) :
    lastActive? ρ as s = lastActive? σ as s := by
  induction as with
  | nil => rfl
  | cons a rest ih =>
    have hrest := ih fun b hb => h b (List.mem_cons_of_mem a hb)
    rw [lastActive?_cons, lastActive?_cons, hrest]
    by_cases here : a.target = s
    · have hread := h a List.mem_cons_self here
      rw [active_congr hread, eval_value_congr hread]
    · simp [here]

/-- The last active assignment of several groups, if every group that has one gives the same value and
the others are silent. -/
theorem lastActive?_flatMap_of_agree {α : Type} {ρ : SignalId → Bool} {l : List α}
    {f : α → List Assignment} {s : SignalId} {value : Option Bool}
    (hsome : ∃ x ∈ l, lastActive? ρ (f x) s = value)
    (h : ∀ x ∈ l, lastActive? ρ (f x) s = value ∨ lastActive? ρ (f x) s = none) :
    lastActive? ρ (l.flatMap f) s = value := by
  induction l with
  | nil => simp at hsome
  | cons x rest ih =>
    have hrest : ∀ y ∈ rest, lastActive? ρ (f y) s = value ∨ lastActive? ρ (f y) s = none :=
      fun y hy => h y (List.mem_cons_of_mem x hy)
    rw [List.flatMap_cons, lastActive?_append]
    by_cases hlater : ∃ y ∈ rest, lastActive? ρ (f y) s = value
    · rw [ih hlater hrest]
      rcases h x List.mem_cons_self with hx | hx
      · rw [hx, Option.or_self]
      · rw [hx, Option.or_none]
    · have hsilent : lastActive? ρ (rest.flatMap f) s = none := by
        rw [lastActive?_eq_none_iff]
        intro a ha
        obtain ⟨y, hy, ha⟩ := List.mem_flatMap.1 ha
        have hnone := (hrest y hy).resolve_left fun hvalue => hlater ⟨y, hy, hvalue⟩
        exact lastActive?_eq_none_iff.1 hnone a ha
      have hx : lastActive? ρ (f x) s = value := by
        obtain ⟨y, hy, hvalue⟩ := hsome
        rcases List.mem_cons.1 hy with rfl | hy
        · exact hvalue
        · exact absurd ⟨y, hy, hvalue⟩ hlater
      rw [hsilent, Option.none_or, hx]

/-- The last active assignment of several groups, if all groups but one leave the net alone. The
remaining group may occur more than once. -/
theorem lastActive?_flatMap {α : Type} {ρ : SignalId → Bool} {l : List α}
    {f : α → List Assignment} {x : α} {s : SignalId} (hx : x ∈ l)
    (h : ∀ y ∈ l, y = x ∨ ∀ a ∈ f y, a.target ≠ s) :
    lastActive? ρ (l.flatMap f) s = lastActive? ρ (f x) s := by
  refine lastActive?_flatMap_of_agree ⟨x, hx, rfl⟩ fun y hy => ?_
  rcases h y hy with rfl | hapart
  · exact .inl rfl
  · exact .inr (lastActive?_eq_none hapart)

/-- If all assignments to a net are the same, whether that one is active decides. -/
theorem lastActive?_of_unique {ρ : SignalId → Bool} {as : List Assignment} {a : Assignment}
    (ha : a ∈ as) (h : ∀ b ∈ as, b.target = a.target → b = a) :
    lastActive? ρ as a.target = if a.active ρ then some (a.value.eval ρ) else none := by
  have hone : ∀ b ∈ as, b = a ∨ ∀ c ∈ [b], c.target ≠ a.target := by
    intro b hb
    by_cases htarget : b.target = a.target
    · exact .inl (h b hb htarget)
    · exact .inr fun c hc => List.mem_singleton.1 hc ▸ htarget
  have hgroups := lastActive?_flatMap (ρ := ρ) (f := fun b => [b]) ha hone
  rw [List.flatMap_singleton'] at hgroups
  rw [hgroups, lastActive?_cons]
  simp [lastActive?]

/-- Where a list has one assignment for each net, part of it says the same of the nets it assigns. -/
theorem lastActive?_of_subset {ρ : SignalId → Bool} {as bs : List Assignment} {a : Assignment}
    (hsub : ∀ b ∈ as, b ∈ bs) (hunique : ∀ b ∈ bs, ∀ c ∈ bs, b.target = c.target → b = c)
    (ha : a ∈ as) : lastActive? ρ as a.target = lastActive? ρ bs a.target := by
  rw [lastActive?_of_unique ha fun b hb => hunique b (hsub b hb) a (hsub a ha),
    lastActive?_of_unique (hsub a ha) fun b hb => hunique b hb a (hsub a ha)]

/-- The last active assignment decides; without one the net keeps its entry. -/
theorem get?_applyAll (ρ : SignalId → Bool) (as : List Assignment) (v : Levels) (s : SignalId) :
    (applyAll ρ as v).get? s = (lastActive? ρ as s).or (v.get? s) := by
  induction as generalizing v with
  | nil => simp [applyAll, lastActive?]
  | cons a rest ih =>
    rw [applyAll_cons, ih, lastActive?_cons, Option.or_assoc]
    congr 1
    by_cases active : a.active ρ <;> by_cases here : a.target = s <;>
      simp [active, here, Levels.get?_set]

end Assignment

namespace Stmt

mutual
/-- The assignments of a statement, in program order. -/
def assignments : Stmt → List Assignment
  | assign s e => [⟨[], s, e⟩]
  | guard c body => (assignmentsAll body).map (.under c)

/-- The assignments of a statement list, in program order. -/
def assignmentsAll : List Stmt → List Assignment
  | [] => []
  | s :: rest => s.assignments ++ assignmentsAll rest
end

theorem assignmentsAll_eq_flatMap (ss : List Stmt) :
    assignmentsAll ss = ss.flatMap assignments := by
  induction ss with
  | nil => rfl
  | cons s rest ih => rw [assignmentsAll, ih, List.flatMap_cons]

@[simp] theorem assignmentsAll_append (ss ts : List Stmt) :
    assignmentsAll (ss ++ ts) = assignmentsAll ss ++ assignmentsAll ts := by
  simp [assignmentsAll_eq_flatMap]

theorem assignmentsAll_flatMap {α : Type} (l : List α) (f : α → List Stmt) :
    assignmentsAll (l.flatMap f) = l.flatMap fun x => assignmentsAll (f x) := by
  simp [assignmentsAll_eq_flatMap, List.flatMap_assoc]

theorem mem_assignmentsAll {a : Assignment} {ss : List Stmt} :
    a ∈ assignmentsAll ss ↔ ∃ s ∈ ss, a ∈ s.assignments := by
  rw [assignmentsAll_eq_flatMap, List.mem_flatMap]

@[simp] theorem assignments_drive (s : Signal) (e : Expr) :
    (s.drive e).assignments = [⟨[], s.id, e⟩] :=
  rfl

@[simp] theorem assignments_guard_drive (c : Expr) (s : Signal) (e : Expr) :
    (guard c [s.drive e]).assignments = [⟨[c], s.id, e⟩] :=
  rfl

mutual
theorem targets_eq_map (s : Stmt) : s.targets = s.assignments.map (·.target) := by
  cases s with
  | assign s e => rfl
  | guard c body =>
    rw [targets, assignments, List.map_map, targetsAll_eq_map body]
    rfl

/-- The nets a statement list may drive are those it has an assignment for. -/
theorem targetsAll_eq_map (ss : List Stmt) :
    targetsAll ss = (assignmentsAll ss).map (·.target) := by
  cases ss with
  | nil => rfl
  | cons s rest =>
    rw [targetsAll, assignmentsAll, List.map_append, targets_eq_map s, targetsAll_eq_map rest]
end

theorem lastActive?_of_not_mem {ρ : SignalId → Bool} {ss : List Stmt} {s : SignalId}
    (hs : s ∉ targetsAll ss) : Assignment.lastActive? ρ (assignmentsAll ss) s = none := by
  apply Assignment.lastActive?_eq_none
  rintro a ha rfl
  rw [targetsAll_eq_map] at hs
  exact hs (List.mem_map_of_mem ha)

mutual
theorem mem_reads_of_mem_assignments {s : Stmt} {a : Assignment} {t : SignalId}
    (ha : a ∈ s.assignments) (ht : t ∈ a.reads) : t ∈ s.reads := by
  cases s with
  | assign s e =>
    obtain rfl := List.mem_singleton.1 ha
    simpa [Assignment.reads, reads] using ht
  | guard c body =>
    obtain ⟨b, hb, rfl⟩ := List.mem_map.1 ha
    rw [Assignment.reads, Assignment.under, List.flatMap_cons, List.append_assoc] at ht
    rw [reads, List.mem_append]
    exact (List.mem_append.1 ht).imp_right fun ht => mem_readsAll_of_mem_assignments hb ht

/-- What an assignment of a statement list depends on is read by the list. -/
theorem mem_readsAll_of_mem_assignments {ss : List Stmt} {a : Assignment} {t : SignalId}
    (ha : a ∈ assignmentsAll ss) (ht : t ∈ a.reads) : t ∈ readsAll ss := by
  cases ss with
  | nil => cases ha
  | cons s rest =>
    rw [readsAll, List.mem_append]
    rcases List.mem_append.1 ha with ha | ha
    · exact .inl (mem_reads_of_mem_assignments ha ht)
    · exact .inr (mem_readsAll_of_mem_assignments ha ht)
end

end Stmt

end IrqSynth
