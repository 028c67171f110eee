-- SUMMARY: The sources of a controller in order of creation, with ranks and field names.
import IrqSynth.Source

/-!
# Rosters

The sources of a controller in the order of their creation, whatever the order in which they were
entered. The rank of a source in its roster is its bit in every register.

Main statement: `perm_insert` says what a roster holds after an insertion.
-/
namespace IrqSynth

/-- Sources with ascending ids. -/
structure Roster where
  sources : List Source
  ascending : sources.Pairwise fun a b => a.id < b.id
  deriving DecidableEq

namespace Roster

-- ---------------------------------------------------------------------------
-- Insertion
-- ---------------------------------------------------------------------------

def empty : Roster :=
  ⟨[], .nil⟩

/-- Enters a source into an ascending list; a source of the same id gives way. -/
def place (s : Source) : List Source → List Source
  | [] => [s]
  | t :: rest =>
    if s.id < t.id then s :: t :: rest
    else if s.id = t.id then s :: rest
    else t :: place s rest

theorem eq_or_mem_of_mem_place {s t : Source} {l : List Source} (h : t ∈ place s l) :
    t = s ∨ t ∈ l := by
  induction l with
  | nil => simpa [place] using h
  | cons u rest ih =>
    simp only [place] at h
    split at h
    · simpa using h
    · split at h
      · rcases List.mem_cons.1 h with h | h
        · exact .inl h
        · exact .inr (List.mem_cons_of_mem u h)
      · rcases List.mem_cons.1 h with h | h
        · exact .inr (by simp [h])
        · exact (ih h).imp_right (List.mem_cons_of_mem u)

theorem pairwise_place (s : Source) {l : List Source} (h : l.Pairwise fun a b => a.id < b.id) :
    (place s l).Pairwise fun a b => a.id < b.id := by
  induction l with
  | nil => simp [place]
  | cons t rest ih =>
    obtain ⟨head, tail⟩ := List.pairwise_cons.1 h
    simp only [place]
    split
    · rename_i lt
      refine List.pairwise_cons.2 ⟨?_, h⟩
      intro u hu
      rcases List.mem_cons.1 hu with hu | hu
      · exact hu ▸ lt
      · exact Nat.lt_trans lt (head u hu)
    · split
      · rename_i eq
        exact List.pairwise_cons.2 ⟨fun u hu => eq ▸ head u hu, tail⟩
      · rename_i ge ne
        refine List.pairwise_cons.2 ⟨?_, ih tail⟩
        intro u hu
        rcases eq_or_mem_of_mem_place hu with hu | hu
        · exact hu ▸ Nat.lt_of_le_of_ne (Nat.not_lt.1 ge) (Ne.symm ne)
        · exact head u hu

/-- The roster with one more source. -/
def insert (r : Roster) (s : Source) : Roster :=
  ⟨place s r.sources, pairwise_place s r.ascending⟩

-- ---------------------------------------------------------------------------
-- Look-up
-- ---------------------------------------------------------------------------

def size (r : Roster) : Nat :=
  r.sources.length

def isEmpty (r : Roster) : Bool :=
  r.sources.isEmpty

def ids (r : Roster) : List SourceId :=
  r.sources.map Source.id

/-- Whether the roster has a source of the given id. -/
def holds (r : Roster) (id : SourceId) : Bool :=
  r.sources.any fun s => s.id == id

/-- The position of a source in creation order. -/
def rank? (r : Roster) (id : SourceId) : Option Nat :=
  r.sources.findIdx? fun s => s.id == id

@[simp] theorem holds_iff {r : Roster} {id : SourceId} : r.holds id ↔ id ∈ r.ids := by
  simp [holds, ids]

theorem perm_place {s : Source} {l : List Source} (h : s.id ∉ l.map Source.id) :
    (place s l).Perm (s :: l) := by
  induction l with
  | nil => exact .refl _
  | cons t rest ih =>
    simp only [List.map_cons, List.mem_cons, not_or] at h
    simp only [place, h.1, if_false]
    split
    · exact .refl _
    · exact ((ih h.2).cons t).trans (.swap s t rest)

/-- Entering a new source adds that source and keeps the others. -/
theorem perm_insert {r : Roster} {s : Source} (h : s.id ∉ r.ids) :
    (r.insert s).sources.Perm (s :: r.sources) :=
  perm_place h

theorem mem_ids_insert {r : Roster} {s : Source} {id : SourceId} (h : s.id ∉ r.ids) :
    id ∈ (r.insert s).ids ↔ id = s.id ∨ id ∈ r.ids :=
  ((perm_insert h).map Source.id).mem_iff.trans List.mem_cons

theorem size_insert {r : Roster} {s : Source} (h : s.id ∉ r.ids) :
    (r.insert s).size = r.size + 1 :=
  (perm_insert h).length_eq

/-- A roster is determined by the sources that it has. -/
theorem eq_of_perm {r r' : Roster} (h : r.sources.Perm r'.sources) : r = r' := by
  have hsources : r.sources = r'.sources := by
    refine h.eq_of_pairwise ?_ r.ascending r'.ascending
    intro a b _ _ hab hba
    exact absurd hab (Nat.lt_asymm hba)
  cases r
  cases r'
  congr

theorem insert_comm {r : Roster} {s t : Source} (hs : s.id ∉ r.ids) (ht : t.id ∉ r.ids)
    (hne : s.id ≠ t.id) : (r.insert s).insert t = (r.insert t).insert s := by
  have hts : t.id ∉ (r.insert s).ids := by
    rw [mem_ids_insert hs]
    exact fun h => h.elim (Ne.symm hne) ht
  have hst : s.id ∉ (r.insert t).ids := by
    rw [mem_ids_insert ht]
    exact fun h => h.elim hne hs
  apply eq_of_perm
  have hleft := (perm_insert hts).trans ((perm_insert hs).cons t)
  have hright := (perm_insert hst).trans ((perm_insert ht).cons s)
  exact hleft.trans ((List.Perm.swap s t r.sources).trans hright.symm)

theorem length_filter_lt {l : List Source} (h : l.Pairwise fun a b => a.id < b.id) {i : Nat}
    {s : Source} (hs : l[i]? = some s) : (l.filter fun t => t.id < s.id).length = i := by
  induction l generalizing i with
  | nil => cases hs
  | cons t rest ih =>
    obtain ⟨hhead, htail⟩ := List.pairwise_cons.1 h
    cases i with
    | zero =>
      obtain rfl : t = s := Option.some.inj hs
      have hnone : rest.filter (fun u => u.id < t.id) = [] := by
        rw [List.filter_eq_nil_iff]
        intro u hu
        simpa using Nat.le_of_lt (hhead u hu)
      simp [hnone]
    | succ i =>
      have hlt : t.id < s.id := hhead s (List.mem_of_getElem? hs)
      have hrest := ih htail hs
      simp [hlt, hrest]

/-- The bit of a source is the number of sources created before it. -/
theorem bit_eq_length_filter (r : Roster) {i : Nat} {s : Source} (hs : r.sources[i]? = some s) :
    i = (r.sources.filter fun t => t.id < s.id).length :=
  (length_filter_lt r.ascending hs).symm

theorem eq_of_id_eq (r : Roster) {s t : Source} (hs : s ∈ r.sources) (ht : t ∈ r.sources)
    (hid : s.id = t.id) : s = t := by
  obtain ⟨i, hi⟩ := List.mem_iff_getElem?.1 hs
  obtain ⟨j, hj⟩ := List.mem_iff_getElem?.1 ht
  have hrank := r.bit_eq_length_filter hi
  rw [hid, ← r.bit_eq_length_filter hj] at hrank
  subst hrank
  exact Option.some.inj (hi.symm.trans hj)

/-- The rank of a source counts the sources created before it. -/
theorem rank?_eq (r : Roster) (id : SourceId) :
    r.rank? id =
      if id ∈ r.ids then some (r.sources.filter fun t => t.id < id).length else none := by
  cases h : r.rank? id with
  | none =>
    have hnone : id ∉ r.ids := by
      intro hid
      obtain ⟨s, hs, hid⟩ := List.mem_map.1 hid
      have hne := List.findIdx?_eq_none_iff.1 h s hs
      simp [hid] at hne
    rw [if_neg hnone]
  | some i =>
    obtain ⟨hi, hid, -⟩ := List.findIdx?_eq_some_iff_getElem.1 h
    have hs := List.getElem?_eq_getElem hi
    rw [beq_iff_eq] at hid
    have hmem : id ∈ r.ids := hid ▸ List.mem_map_of_mem (List.getElem_mem hi)
    rw [if_pos hmem, ← hid]
    exact congrArg some (r.bit_eq_length_filter hs)

-- ---------------------------------------------------------------------------
-- Field names
-- ---------------------------------------------------------------------------

/-- The field name of every bit: the name given to its source, or the fallback with the number of
the bit. -/
def fieldNames (r : Roster) : List String :=
  r.sources.mapIdx fun i s => s.fieldName i

/-- The first string of a list that occurs before, in the list itself or in `seen`. -/
def firstRepeat? (seen : List String) : List String → Option String
  | [] => none
  | n :: rest => if n ∈ seen then some n else firstRepeat? (n :: seen) rest

end Roster

end IrqSynth
