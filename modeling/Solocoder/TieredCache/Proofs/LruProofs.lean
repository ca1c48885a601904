import Mathlib.Algebra.Order.BigOperators.Group.List
import Solocoder.TieredCache.Cache

/-!
# The bookkeeping of a cache level

The order list holds the keys of the entries once each, and the counters say how many entries there
are and how large they are together.
-/

namespace Solocoder.Tiered

open List Function

section

variable {α : Type} {f : Key → Option α} {a b : α} {key k : Key}

theorem update_eq_some {o : Option α} : update f key o k = some b ↔
    k = key ∧ o = some b ∨ k ≠ key ∧ f k = some b := by
  by_cases hk : k = key
  · subst hk
    simp
  · simp [hk]

theorem ne_of_update_none (h : update f key none k = some a) : k ≠ key ∧ f k = some a := by
  simpa using update_eq_some.1 h

theorem cases_of_update_some (h : update f key (some a) k = some b) :
    k = key ∧ a = b ∨ k ≠ key ∧ f k = some b := by
  simpa using update_eq_some.1 h

end

namespace LruCache

variable {c c' : LruCache} {key : Key} {value : Value} {entry old : CacheEntry}
  (items : Key → Option CacheEntry)

/-- The size of the entry of a key. -/
def sizeAt (key : Key) : Int := ((items key).map (·.size)).getD 0

/-- The order list, the entries and the counters belong together. -/
structure Coherent (c : LruCache) : Prop where
  nodup : c.orderList.Nodup
  mem_iff : ∀ key, key ∈ c.orderList ↔ ∃ entry, c.items key = some entry
  key_eq : ∀ {key entry}, c.items key = some entry → entry.key = key
  size_eq : ∀ {key entry}, c.items key = some entry → entry.size = entry.value.length
  count_eq : c.count = c.orderList.length
  bytes_eq : c.totalBytes = (c.orderList.map (sizeAt c.items)).sum

theorem coherent_new (capacity : Int) (capacityMode : CapacityMode) :
    (new capacity capacityMode).Coherent where
  nodup := nodup_nil
  mem_iff := by simp [new]
  key_eq := nofun
  size_eq := nofun
  count_eq := rfl
  bytes_eq := rfl

theorem Coherent.congr (h : c.Coherent) (hitems : c'.items = c.items)
    (horder : c'.orderList = c.orderList) (hcount : c'.count = c.count)
    (hbytes : c'.totalBytes = c.totalBytes) : c'.Coherent where
  nodup := horder ▸ h.nodup
  mem_iff := fun key => by rw [horder, hitems, h.mem_iff]
  key_eq := fun he => h.key_eq (hitems ▸ he)
  size_eq := fun he => h.size_eq (hitems ▸ he)
  count_eq := by rw [hcount, horder, h.count_eq]
  bytes_eq := by rw [hbytes, horder, hitems, h.bytes_eq]

theorem sizeAt_update_self (entry : CacheEntry) :
    sizeAt (update items key (some entry)) key = entry.size := by
  unfold sizeAt
  rw [update_self]
  rfl

variable {items : Key → Option CacheEntry} {keys : List Key}

theorem sizeAt_of_items (h : items key = some entry) : sizeAt items key = entry.size := by
  unfold sizeAt
  rw [h]
  rfl

theorem map_sizeAt_update (h : key ∉ keys) (o : Option CacheEntry) :
    keys.map (sizeAt (update items key o)) = keys.map (sizeAt items) := by
  apply map_congr_left
  intro k hk
  unfold sizeAt
  rw [update_of_ne]
  rintro rfl
  exact h hk

theorem sum_sizeAt_erase (hmem : key ∈ keys) (h : items key = some entry) :
    (keys.map (sizeAt items)).sum = entry.size + ((keys.erase key).map (sizeAt items)).sum := by
  rw [((perm_cons_erase hmem).map _).sum_eq, map_cons, sum_cons, sizeAt_of_items h]

theorem modify_eq (h : c.items key = some entry) (f : CacheEntry → CacheEntry) :
    c.modify key f = { c with items := update c.items key (some (f entry)) } := by
  unfold modify
  rw [h]

theorem items_of_remove {e : CacheEntry} (h : (c.remove entry).items key = some e) :
    c.items key = some e ∧ key ≠ entry.key :=
  (ne_of_update_none h).symm

namespace Coherent

variable (h : c.Coherent)
include h

theorem mem (he : c.items key = some entry) : key ∈ c.orderList :=
  (h.mem_iff key).mpr ⟨entry, he⟩

theorem notMem (he : c.items key = none) : key ∉ c.orderList := by
  intro hmem
  obtain ⟨entry, hentry⟩ := (h.mem_iff key).mp hmem
  rw [he] at hentry
  cases hentry

theorem enqueueEvict (entry : CacheEntry) : (c.enqueueEvict entry).Coherent :=
  h.congr rfl rfl rfl rfl

protected theorem moveToFront (he : c.items key = some entry) : (c.moveToFront key).Coherent := by
  have hperm := perm_cons_erase (h.mem he)
  exact {
    nodup := hperm.nodup h.nodup
    mem_iff := fun k => hperm.symm.mem_iff.trans (h.mem_iff k)
    key_eq := h.key_eq
    size_eq := h.size_eq
    count_eq := h.count_eq.trans (congrArg Nat.cast hperm.length_eq)
    bytes_eq := h.bytes_eq.trans (hperm.map _).sum_eq }

/-- An entry leaves the level. -/
theorem remove (he : c.items entry.key = some entry) : (c.remove entry).Coherent := by
  have hmem := h.mem he
  have hnot : entry.key ∉ c.orderList.erase entry.key := h.nodup.not_mem_erase
  exact {
    nodup := h.nodup.erase _
    mem_iff := fun k => by
      show k ∈ c.orderList.erase entry.key ↔ ∃ e, update c.items entry.key none k = some e
      simp [h.nodup.mem_erase_iff, h.mem_iff, update_eq_some]
    key_eq := fun hk => h.key_eq (items_of_remove hk).1
    size_eq := fun hk => h.size_eq (items_of_remove hk).1
    count_eq := by
      show c.count - 1 = ((c.orderList.erase entry.key).length : Int)
      have hpos := length_pos_of_mem hmem
      rw [h.count_eq, length_erase_of_mem hmem]
      omega
    bytes_eq := by
      show c.totalBytes - entry.size =
        ((c.orderList.erase entry.key).map (sizeAt (update c.items entry.key none))).sum
      rw [map_sizeAt_update hnot, h.bytes_eq, sum_sizeAt_erase hmem he]
      omega }

theorem update_entry (hkey : entry.key = key)
    (hsize : entry.size = entry.value.length) {k : Key} {e : CacheEntry}
    (hk : update c.items key (some entry) k = some e) :
    e.key = k ∧ e.size = e.value.length := by
  rcases cases_of_update_some hk with ⟨rfl, rfl⟩ | ⟨-, hk⟩
  · exact ⟨hkey, hsize⟩
  · exact ⟨h.key_eq hk, h.size_eq hk⟩

/-- A new entry is put in front. -/
theorem insert (entry : CacheEntry) (he : c.items entry.key = none)
    (hsize : entry.size = entry.value.length) : (c.insert entry).Coherent := by
  have hnot := h.notMem he
  exact {
    nodup := nodup_cons.mpr ⟨hnot, h.nodup⟩
    mem_iff := fun k => by
      show k ∈ entry.key :: c.orderList ↔ ∃ e, update c.items entry.key (some entry) k = some e
      by_cases hk : k = entry.key <;> simp [h.mem_iff, hk]
    key_eq := fun hk => (h.update_entry rfl hsize hk).1
    size_eq := fun hk => (h.update_entry rfl hsize hk).2
    count_eq := by
      show c.count + 1 = ((entry.key :: c.orderList).length : Int)
      rw [h.count_eq, length_cons]
      omega
    bytes_eq := by
      show c.totalBytes + entry.size = ((entry.key :: c.orderList).map
          (sizeAt (update c.items entry.key (some entry)))).sum
      rw [map_cons, sum_cons, sizeAt_update_self, map_sizeAt_update hnot, h.bytes_eq]
      omega }

protected theorem update (entry : CacheEntry) (he : c.items key = some old)
    (hkey : entry.key = key) (hsize : entry.size = entry.value.length) :
    { c with
      items := update c.items key (some entry)
      totalBytes := c.totalBytes - old.size + entry.size }.Coherent := by
  have hmem := h.mem he
  have hnot : key ∉ c.orderList.erase key := h.nodup.not_mem_erase
  exact {
    nodup := h.nodup
    mem_iff := fun k => by
      show k ∈ c.orderList ↔ ∃ e, update c.items key (some entry) k = some e
      by_cases hk : k = key <;> simp [h.mem_iff, hk, he]
    key_eq := fun hk => (h.update_entry hkey hsize hk).1
    size_eq := fun hk => (h.update_entry hkey hsize hk).2
    count_eq := h.count_eq
    bytes_eq := by
      show c.totalBytes - old.size + entry.size =
        (c.orderList.map (sizeAt (update c.items key (some entry)))).sum
      rw [sum_sizeAt_erase hmem (update_self key (some entry) c.items),
        map_sizeAt_update hnot, h.bytes_eq, sum_sizeAt_erase hmem he]
      omega }

protected theorem replace (entry : CacheEntry) (he : c.items entry.key = some old)
    (hsize : entry.size = entry.value.length) : (c.replace old entry).Coherent :=
  (h.moveToFront he).update (c := c.moveToFront entry.key) entry he rfl hsize

protected theorem modify {f : CacheEntry → CacheEntry}
    (hf : ∀ e, (f e).key = e.key ∧ (f e).value = e.value ∧ (f e).size = e.size) :
    (c.modify key f).Coherent := by
  unfold modify
  split
  next e he =>
    obtain ⟨hkey, hvalue, hsize⟩ := hf e
    have hupdate := h.update (f e) he (hkey.trans (h.key_eq he))
      (by rw [hsize, hvalue, h.size_eq he])
    refine hupdate.congr rfl rfl rfl ?_
    show c.totalBytes = c.totalBytes - e.size + (f e).size
    rw [hsize]
    omega
  next => exact h

protected theorem evictOneLocked (hevict : c.evictOneLocked = some c') :
    ∃ e, c.items e.key = some e ∧ c' = (c.remove e).enqueueEvict e := by
  unfold evictOneLocked at hevict
  split at hevict
  next => cases hevict
  next k hk =>
    obtain ⟨e, he, rfl⟩ := Option.map_eq_some_iff.mp hevict
    exact ⟨e, by rw [h.key_eq he]; exact he, rfl⟩

theorem clearDirty (key : Key) : (c.clearDirty key).Coherent :=
  h.modify fun _ => ⟨rfl, rfl, rfl⟩

protected theorem delete (key : Key) : (c.delete key).Coherent := by
  unfold LruCache.delete
  cases he : c.items key with
  | none => exact h
  | some e => exact (h.remove (by rw [h.key_eq he]; exact he)).enqueueEvict e

end Coherent

theorem takeQueue_eq_some : c.takeQueue = some c' ↔
    c.taken = [] ∧ { c with taken := c.evictQueue, evictQueue := [] } = c' := by
  simp [takeQueue]

theorem nextTaken_eq_some : c.nextTaken = some (entry, c') ↔
    ∃ taken, c.taken = entry :: taken ∧ { c with taken } = c' := by
  unfold nextTaken
  split <;> simp_all

theorem makeRoom_induct {P : LruCache → Prop}
    (hstep : ∀ c c', P c → c.evictOneLocked = some c' → P c') (newSize n : Nat) (h : P c) :
    P (makeRoom newSize n c) := by
  induction n generalizing c with
  | zero => exact h
  | succ n ih =>
    unfold makeRoom
    split
    · split
      next => exact h
      next c' hevict => exact ih (hstep c c' h hevict)
    · exact h

/-! ## The entries that make room -/

variable {size n : Nat}

/-- There is no room for `keys` and an entry of this size. -/
def Overfull (c : LruCache) (keys : List Key) (size : Nat) : Prop :=
  match c.capacityMode with
  | .count => keys.length + 1 > c.capacity
  | .bytes => (keys.map (sizeAt c.items)).sum + size > c.capacity

/-- `k` goes when an entry of this size comes. -/
def PushedOut (c : LruCache) (size : Nat) (k : Key) : Prop :=
  ∃ front, front ++ [k] <+: c.orderList ∧ c.Overfull (front ++ [k]) size

structure Cleared (size : Nat) (c c' : LruCache) : Prop where
  coherent : c'.Coherent
  free : c'.orderList = [] ∨ c'.isOverCapacity size = false
  gone : ∀ {k}, c.PushedOut size k → c'.items k = none
  kept : ∀ {k}, ¬ c.PushedOut size k → c'.items k = c.items k

theorem sizeAt_nonneg (items : Key → Option CacheEntry) (key : Key) : 0 ≤ sizeAt items key := by
  cases he : items key <;> simp [sizeAt, he]

theorem Overfull.mono (h : c.Overfull keys size) {keys' : List Key} (hle : keys <+: keys') :
    c.Overfull keys' size := by
  obtain ⟨more, rfl⟩ := hle
  have hnonneg : 0 ≤ (more.map (sizeAt c.items)).sum :=
    sum_nonneg fun n hn => by
      obtain ⟨key, -, rfl⟩ := mem_map.1 hn
      exact sizeAt_nonneg ..
  unfold Overfull at h ⊢
  cases hmode : c.capacityMode with
  | count =>
    simp only [hmode, length_append] at h ⊢
    omega
  | bytes =>
    simp only [hmode, map_append, sum_append] at h ⊢
    omega

namespace Coherent

variable (h : c.Coherent)
include h

theorem isOverCapacity_iff : c.isOverCapacity size = true ↔ c.Overfull c.orderList size := by
  unfold isOverCapacity Overfull
  cases c.capacityMode with
  | count => simp [h.count_eq]
  | bytes => simp [h.bytes_eq]

theorem evict_last (size : Nat) {l : List Key} {a : Key} (horder : c.orderList = l ++ [a]) :
    ∃ c', c.evictOneLocked = some c' ∧ c'.Coherent ∧ c'.orderList = l ∧
      c'.items = update c.items a none ∧ ∀ k ≠ a, c'.PushedOut size k ↔ c.PushedOut size k := by
  obtain ⟨e, he⟩ := (h.mem_iff a).1 (by simp [horder])
  obtain rfl := h.key_eq he
  have hnodup := h.nodup
  rw [horder, nodup_append] at hnodup
  have hnot : e.key ∉ l := fun hmem => hnodup.2.2 _ hmem _ (mem_singleton_self _) rfl
  have hl : ((c.remove e).enqueueEvict e).orderList = l := by
    simp [LruCache.enqueueEvict, LruCache.remove, horder, erase_append_right _ hnot]
  refine ⟨_, by simp [evictOneLocked, horder, he], (h.remove he).enqueueEvict e, hl, rfl,
    fun k hk => exists_congr fun front => ?_⟩
  have hprefix : front ++ [k] <+: l ↔ front ++ [k] <+: l ++ [e.key] := by
    rw [prefix_concat_iff, or_iff_right]
    exact fun heq => hk (by simpa using (append_inj' heq rfl).2)
  rw [hl, horder, ← hprefix]
  refine and_congr_right fun hle => ?_
  have hsizes : (front ++ [k]).map (sizeAt (update c.items e.key none)) = _ :=
    map_sizeAt_update (fun hmem => hnot (hle.subset hmem)) none
  simp only [Overfull, LruCache.enqueueEvict, LruCache.remove, hsizes]

theorem cleared_of_nil (hnil : c.orderList = []) : Cleared size c c :=
  ⟨h, .inl hnil, fun ⟨front, hle, _⟩ => by simp [hnil] at hle, fun _ => rfl⟩

theorem makeRoom (size : Nat) (hn : c.orderList.length ≤ n) : Cleared size c (makeRoom size n c) := by
  induction n generalizing c with
  | zero => exact h.cleared_of_nil (length_eq_zero_iff.1 (Nat.le_zero.1 hn))
  | succ n ih =>
    unfold LruCache.makeRoom
    split
    next hover =>
      rcases eq_nil_or_concat c.orderList with hnil | ⟨l, a, horder⟩
      · have hevict : c.evictOneLocked = none := by simp [evictOneLocked, hnil]
        rw [hevict]
        exact h.cleared_of_nil hnil
      · rw [concat_eq_append] at horder
        obtain ⟨c', hevict, h', rfl, hitems, hpushed⟩ := h.evict_last size horder
        rw [hevict]
        have hroom := ih h' (by simp [horder] at hn; omega)
        have hlast : c.PushedOut size a :=
          ⟨c'.orderList, horder ▸ prefix_rfl, horder ▸ h.isOverCapacity_iff.1 hover⟩
        refine ⟨hroom.coherent, hroom.free, fun {k} hk => ?_, fun {k} hk => ?_⟩
        · by_cases hout : c'.PushedOut size k
          · exact hroom.gone hout
          · obtain rfl : k = a := by_contra fun hne => hout ((hpushed k hne).2 hk)
            rw [hroom.kept hout, hitems, update_self]
        · have hne : k ≠ a := fun heq => hk (heq ▸ hlast)
          rw [hroom.kept (mt (hpushed k hne).1 hk), hitems, update_of_ne hne]
    next hover =>
      refine ⟨h, .inr (by simpa using hover), fun ⟨front, hle, hfull⟩ => ?_, fun _ => rfl⟩
      exact absurd (h.isOverCapacity_iff.2 (hfull.mono hle)) hover

end Coherent

end LruCache

end Solocoder.Tiered
