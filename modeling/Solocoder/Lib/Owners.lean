import Solocoder.Lib.Circle

/-!
# Points with owners

A ring lists the points that have an owner; a node comes and goes with all its points.
-/

namespace Solocoder.Lib

open List Option

variable {α ι : Type} [LinearOrder α] {ring ring' points : List α} {owner owner' : α → Option ι}
  {own own' : ι → α → Prop} {n m : ι} {p : α}

/-- The ring lists the points of the map, in which `n` has the points `p` with `own n p`. -/
structure Owned (ring : List α) (owner : α → Option ι) (own : ι → α → Prop) : Prop where
  sorted : ring.Pairwise (· < ·)
  listed : ∀ p, p ∈ ring ↔ (owner p).isSome
  owner : ∀ p n, owner p = some n ↔ own n p

theorem pairwise_lt_insertionSort (hnodup : points.Nodup) :
    (points.insertionSort (· ≤ ·)).Pairwise (· < ·) := by
  have hnodup' := (perm_insertionSort (· ≤ ·) points).nodup_iff.2 hnodup
  exact (hnodup'.and (pairwise_insertionSort (· ≤ ·) points)).imp fun h => lt_of_le_of_ne h.2 h.1

section

variable (howner : ∀ p n, owner p = some n ↔ own n p)
include howner

theorem owner_insert (hnew : ∀ p ∈ points, ∀ m, own m p → m = n) :
    (if p ∈ points then some n else owner p) = some m ↔ own m p ∨ m = n ∧ p ∈ points := by
  split
  next hp =>
    rw [some_inj]
    constructor
    · rintro rfl
      exact .inr ⟨rfl, hp⟩
    · rintro (h | ⟨rfl, -⟩)
      · exact (hnew p hp m h).symm
      · rfl
  next hp => simp [howner, hp]

theorem owner_erase (hpoints : ∀ p, p ∈ points ↔ own n p) :
    (if p ∈ points then none else owner p) = some m ↔ m ≠ n ∧ own m p := by
  split
  next hp =>
    refine iff_of_false nofun fun h => h.1 (some.inj ?_)
    rw [← (howner p m).2 h.2, (howner p n).2 ((hpoints p).1 hp)]
  next hp =>
    rw [howner]
    exact ⟨fun h => ⟨fun heq => hp ((hpoints p).2 (heq ▸ h)), h⟩, And.right⟩

end

namespace Owned

variable (h : Owned ring owner own)
include h

theorem mem_iff : p ∈ ring ↔ ∃ m, own m p := by
  rw [h.listed, isSome_iff_exists]
  simp only [h.owner]

theorem insert (hnodup : points.Nodup) (hnew : ∀ p ∈ points, ∀ m, ¬ own m p) :
    Owned ((ring ++ points).insertionSort (· ≤ ·)) (fun p => if p ∈ points then some n else owner p)
      fun m p => own m p ∨ m = n ∧ p ∈ points where
  sorted := by
    refine pairwise_lt_insertionSort (nodup_append'.2 ⟨h.sorted.imp fun h => h.ne, hnodup, ?_⟩)
    intro p hp hp'
    obtain ⟨m, hm⟩ := h.mem_iff.1 hp
    exact hnew p hp' m hm
  listed p := by
    rw [(perm_insertionSort _ _).mem_iff, mem_append, h.listed]
    split
    next hp => simp [hp]
    next hp => simp [hp]
  owner p m := owner_insert h.owner fun p hp m hm => absurd hm (hnew p hp m)

theorem erase (hpoints : ∀ p, p ∈ points ↔ own n p) :
    Owned (ring.filter fun p => (if p ∈ points then none else owner p).isSome)
      (fun p => if p ∈ points then none else owner p) fun m p => m ≠ n ∧ own m p where
  sorted := h.sorted.filter _
  listed p := by
    rw [mem_filter, h.listed]
    split
    next => simp
    next => simp
  owner p m := owner_erase h.owner hpoints

/-- Without the points of `n`. -/
theorem eq_filter [DecidableEq ι] (d : ι) (h' : Owned ring' owner' own')
    (hown : ∀ m p, own' m p ↔ m ≠ n ∧ own m p) :
    ring' = ring.filter (fun p => (owner p).getD d ≠ n) ∧
      ∀ p ∈ ring', (owner' p).getD d = (owner p).getD d := by
  refine ⟨h'.sorted.eq_of_mem_iff (h.sorted.filter _) fun p => ?_, fun p hp => ?_⟩
  · rw [mem_filter, h.mem_iff, h'.mem_iff, decide_eq_true_eq]
    constructor
    · rintro ⟨m, hm⟩
      obtain ⟨hne, hm⟩ := (hown m p).1 hm
      exact ⟨⟨m, hm⟩, by rwa [(h.owner p m).2 hm]⟩
    · rintro ⟨⟨m, hm⟩, hne⟩
      rw [(h.owner p m).2 hm] at hne
      exact ⟨m, (hown m p).2 ⟨hne, hm⟩⟩
  · obtain ⟨m, hm⟩ := h'.mem_iff.1 hp
    rw [(h'.owner p m).2 hm, (h.owner p m).2 ((hown m p).1 hm).2]

end Owned

end Solocoder.Lib
