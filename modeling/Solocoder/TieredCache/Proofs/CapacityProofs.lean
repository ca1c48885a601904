import Solocoder.Lib.Runs
import Solocoder.TieredCache.Proofs.LruProofs

/-!
# The capacity of a cache level

A new entry evicts others until it fits. The replacement of an entry by a larger one, and an entry
that is larger than the whole level, do not.
-/

namespace Solocoder.Tiered

open Lib List Function LruCache

/-- The calls of `lruCache`. -/
inductive LruOp where
  | put (key : Key) (value : Value)
  | putWithoutEvictCallback (key : Key) (value : Value)
  | get (key : Key)
  | delete (key : Key)
  | evictAll
  | clear

/-- A level, the number of calls so far, and the call that used each key last. -/
structure Timed where
  cache : LruCache
  now : Nat
  usedAt : Key → Nat

namespace LruCache

variable {c c' : LruCache} {key : Key} {value : Value}

/-- The level after a call, and the key that the call used. -/
def step (c : LruCache) : LruOp → LruCache × Option Key
  | .put key value => (c.put key value, some key)
  | .putWithoutEvictCallback key value =>
    match c.putWithoutEvictCallback key value with
    | some c => (c, some key)
    | none => (c, none)
  | .get key =>
    match c.get key with
    | some (_, c) => (c, some key)
    | none => (c, none)
  | .delete key => (c.delete key, none)
  | .evictAll => (c.evictAll, none)
  | .clear => (c.clear, none)

/-- The counter that the mode is about does not exceed the capacity. -/
def Fits (c : LruCache) : Prop :=
  (c.capacityMode = .count → c.count ≤ c.capacity) ∧
    (c.capacityMode = .bytes → c.totalBytes ≤ c.capacity)

/-- In bytes mode, a value fits in place of the one it replaces, and a new one fits at all. -/
def Room (c : LruCache) : LruOp → Prop
  | .put key value => c.capacityMode = .bytes → value.length ≤ c.capacity ∧
      ∀ old, c.items key = some old → c.totalBytes - old.size + value.length ≤ c.capacity
  | .putWithoutEvictCallback key value => c.capacityMode = .bytes →
      ∀ old, c.items key = some old → c.totalBytes - old.size + value.length ≤ c.capacity
  | _ => True

/-- What holds of a level after every call; `used` are the calls that used the keys last. -/
structure Good (c : LruCache) (used : Key → Nat) (now : Nat) : Prop where
  coherent : c.Coherent
  fits : c.Fits
  pos : 0 < c.capacity
  recent : c.orderList.Pairwise fun a b => used b < used a
  past : ∀ k ∈ c.orderList, used k ≤ now

/-- What is left of a level when entries go. -/
structure Shrunk (c c' : LruCache) : Prop where
  coherent : c'.Coherent
  sublist : c'.orderList.Sublist c.orderList
  mode : c'.capacityMode = c.capacityMode
  capacity : c'.capacity = c.capacity
  count_le : c'.count ≤ c.count
  bytes_le : c'.totalBytes ≤ c.totalBytes

theorem Shrunk.remove (h : Shrunk c c') {e : CacheEntry} (he : c'.items e.key = some e) :
    Shrunk c ((c'.remove e).enqueueEvict e) where
  coherent := (h.coherent.remove he).enqueueEvict e
  sublist := erase_sublist.trans h.sublist
  mode := h.mode
  capacity := h.capacity
  count_le := (Int.sub_le_self _ Int.one_nonneg).trans h.count_le
  bytes_le := (Int.sub_le_self _ (Int.natCast_nonneg _)).trans h.bytes_le

theorem Shrunk.evict {c'' : LruCache} (h : Shrunk c c') (hevict : c'.evictOneLocked = some c'') :
    Shrunk c c'' := by
  obtain ⟨e, he, rfl⟩ := h.coherent.evictOneLocked hevict
  exact h.remove he

theorem Coherent.shrunk (h : c.Coherent) : Shrunk c c :=
  ⟨h, Sublist.refl _, rfl, rfl, le_rfl, le_rfl⟩

theorem Shrunk.evictAllLoop (n : Nat) (h : Shrunk c c') : Shrunk c (evictAllLoop n c') := by
  induction n generalizing c' with
  | zero => exact h
  | succ n ih =>
    unfold evictAllLoop
    split
    next => exact h
    next c'' hevict => exact ih (h.evict hevict)

theorem room_of_isOverCapacity {size : Nat} (h : c.isOverCapacity size = false) :
    (c.capacityMode = .count → c.count + 1 ≤ c.capacity) ∧
      (c.capacityMode = .bytes → c.totalBytes + size ≤ c.capacity) := by
  unfold isOverCapacity at h
  split at h <;> simp_all

namespace Good

variable {used : Key → Nat} {now : Nat} (h : c.Good used now)
include h

theorem shrink (hs : Shrunk c c') : c'.Good used (now + 1) where
  coherent := hs.coherent
  fits := by
    unfold Fits
    rw [hs.mode, hs.capacity]
    exact ⟨fun hm => hs.count_le.trans (h.fits.1 hm), fun hm => hs.bytes_le.trans (h.fits.2 hm)⟩
  pos := hs.capacity ▸ h.pos
  recent := h.recent.sublist hs.sublist
  past := fun k hk => (h.past k (hs.sublist.subset hk)).trans (Nat.le_succ now)

theorem use (hc : c'.Coherent) (hfits : c'.Fits)
    (hcap : c'.capacity = c.capacity) {keys : List Key} (horder : c'.orderList = key :: keys)
    (hsub : keys.Sublist c.orderList) :
    c'.Good (update used key (now + 1)) (now + 1) := by
  have hnot : key ∉ keys := (nodup_cons.mp (horder ▸ hc.nodup)).1
  have hused : ∀ k ∈ keys, update used key (now + 1) k = used k := by
    intro k hk
    refine update_of_ne ?_ ..
    rintro rfl
    exact hnot hk
  refine ⟨hc, hfits, hcap ▸ h.pos, ?_, fun k hk => ?_⟩
  · rw [horder, pairwise_cons]
    refine ⟨fun k hk => ?_, (h.recent.sublist hsub).imp_of_mem fun ha hb hab => ?_⟩
    · rw [hused k hk, update_self]
      exact Nat.lt_succ_of_le (h.past k (hsub.subset hk))
    · rwa [hused _ ha, hused _ hb]
  · rw [horder] at hk
    rcases mem_cons.mp hk with rfl | hk
    · rw [update_self]
    · rw [hused k hk]
      exact (h.past k (hsub.subset hk)).trans (Nat.le_succ now)

theorem moveToFront {e : CacheEntry} (he : c.items key = some e) :
    (c.moveToFront key).Good (update used key (now + 1)) (now + 1) :=
  h.use (h.coherent.moveToFront he) h.fits rfl rfl erase_sublist

theorem replace {old : CacheEntry} (he : c.items key = some old)
    (hroom : c.capacityMode = .bytes → c.totalBytes - old.size + value.length ≤ c.capacity) :
    (c.replace old (newEntry key value)).Good (update used key (now + 1)) (now + 1) :=
  h.use (h.coherent.replace (newEntry key value) he rfl) ⟨h.fits.1, hroom⟩ rfl rfl erase_sublist

theorem insert (hs : Shrunk c c') (he : c.items key = none)
    (hroom : (c'.capacityMode = .count → c'.count + 1 ≤ c'.capacity) ∧
      (c'.capacityMode = .bytes → c'.totalBytes + value.length ≤ c'.capacity)) :
    (c'.insert (newEntry key value)).Good (update used key (now + 1)) (now + 1) := by
  have hnone : c'.items key = none := by
    by_contra hne
    obtain ⟨e, he'⟩ := Option.ne_none_iff_exists'.mp hne
    exact h.coherent.notMem he (hs.sublist.subset (hs.coherent.mem he'))
  exact h.use (hs.coherent.insert (newEntry key value) hnone rfl) hroom hs.capacity rfl hs.sublist

theorem put (hroom : c.Room (.put key value)) :
    (c.put key value).Good (update used key (now + 1)) (now + 1) := by
  unfold LruCache.put
  split
  next old he => exact h.replace he fun hm => (hroom hm).2 old he
  next he =>
    have hs := makeRoom_induct (P := Shrunk c) (fun _ _ hs hevict => hs.evict hevict) value.length
      c.orderList.length h.coherent.shrunk
    refine h.insert hs he ?_
    rcases (h.coherent.makeRoom value.length le_rfl).free with hnil | hfree
    · have hcount := hs.coherent.count_eq
      have hbytes := hs.coherent.bytes_eq
      rw [hnil] at hcount hbytes
      rw [hs.mode, hs.capacity, hcount, hbytes]
      exact ⟨fun _ => h.pos, fun hm => by simpa using (hroom hm).1⟩
    · exact room_of_isOverCapacity hfree

theorem putWithoutEvictCallback (hroom : c.Room (.putWithoutEvictCallback key value))
    (hput : c.putWithoutEvictCallback key value = some c') :
    c'.Good (update used key (now + 1)) (now + 1) := by
  unfold LruCache.putWithoutEvictCallback at hput
  cases he : c.items key with
  | some old =>
    simp only [he, Option.some.injEq] at hput
    exact hput ▸ h.replace he fun hm => hroom hm old he
  | none =>
    simp only [he, Option.ite_none_left_eq_some, Option.some.injEq, Bool.not_eq_true] at hput
    exact hput.2 ▸ h.insert h.coherent.shrunk he (room_of_isOverCapacity hput.1)

end Good

end LruCache

/-- A call, at the time after the last one. -/
def Timed.step (t : Timed) (op : LruOp) : Timed where
  cache := (t.cache.step op).1
  now := t.now + 1
  usedAt := (t.cache.step op).2.elim t.usedAt fun key => update t.usedAt key (t.now + 1)

theorem good_step {t : Timed} {op : LruOp} (h : t.cache.Good t.usedAt t.now)
    (hroom : t.cache.Room op) :
    (t.step op).cache.Good (t.step op).usedAt (t.step op).now := by
  unfold Timed.step
  cases op with
  | put key value => exact h.put hroom
  | putWithoutEvictCallback key value =>
    simp only [step]
    split
    next c' hput => exact h.putWithoutEvictCallback hroom hput
    next => exact h.shrink h.coherent.shrunk
  | get key =>
    simp only [step, LruCache.get]
    cases he : t.cache.items key with
    | some entry => exact h.moveToFront he
    | none => exact h.shrink h.coherent.shrunk
  | delete key =>
    simp only [step, delete]
    cases he : t.cache.items key with
    | some entry =>
      exact h.shrink (h.coherent.shrunk.remove (by rw [h.coherent.key_eq he]; exact he))
    | none => exact h.shrink h.coherent.shrunk
  | evictAll => exact h.shrink (h.coherent.shrunk.evictAllLoop _)
  | clear =>
    refine h.shrink ⟨(coherent_new 0 .count).congr rfl rfl rfl rfl, nil_sublist _,
      rfl, rfl, ?_, ?_⟩
    · exact h.coherent.count_eq ▸ Int.natCast_nonneg _
    · rw [h.coherent.bytes_eq]
      refine sum_nonneg fun n hn => ?_
      obtain ⟨key, -, rfl⟩ := mem_map.mp hn
      exact sizeAt_nonneg ..

/-- If there is room for what is put, the counters are those of the entries, the order list has the
keys by recency, and the capacity is kept. -/
theorem run_good (capacity : Int) (mode : CapacityMode) {t : Timed}
    (hrun : Runs Timed.step (fun t op => t.cache.Room op) ⟨.new capacity mode, 0, fun _ => 0⟩ t) :
    t.cache.Good t.usedAt t.now := by
  refine hrun.invariant (P := fun t => t.cache.Good t.usedAt t.now) ?_ fun _ _ h hr => good_step h hr
  have hpos : 0 < (new capacity mode).capacity := by
    simp only [new]
    split <;> omega
  exact ⟨coherent_new capacity mode, ⟨fun _ => hpos.le, fun _ => hpos.le⟩, hpos,
    Pairwise.nil, forall_mem_nil _⟩

theorem run_good_put :
    let t := [.put [1] [2], .put [1] [2, 3], .put [2] [4, 5]].foldl Timed.step
      ⟨.new 3 .bytes, 0, fun _ => 0⟩
    t.cache.orderList = [[2]] ∧ t.cache.Good t.usedAt t.now := by
  refine ⟨by decide, run_good 3 .bytes (((Runs.init.step ?_).step ?_).step ?_)⟩
  · exact fun _ => ⟨by decide, nofun⟩
  · exact fun _ => ⟨by decide, fun old hold => by cases hold; decide⟩
  · exact fun _ => ⟨by decide, nofun⟩

/-- An entry is replaced by a larger one. -/
theorem not_fits_replace : ¬ (Timed.step (Timed.step ⟨.new 3 .bytes, 0, fun _ => 0⟩ (.put [1] [2]))
      (.put [1] [2, 3, 4, 5])).cache.Fits := by
  intro h
  exact absurd (h.2 rfl) (by decide)

end Solocoder.Tiered
