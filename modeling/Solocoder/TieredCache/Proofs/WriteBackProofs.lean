import Mathlib.Algebra.BigOperators.Ring.Finset
import Mathlib.Algebra.Order.Group.Nat
import Mathlib.Data.List.MinMax
import Solocoder.TieredCache.Proofs.LruProofs

/-!
# A write-back cache whose evictions are waited for loses no update

A dirty entry that was evicted is in neither level until its goroutine writes it to the second one.
-/

namespace Solocoder.Tiered

open List Function Option LruCache TieredCache Op

variable {l1 l1' l2 l2' : LruCache} {key k : Key} {value v : Value} {entry e : CacheEntry}
  {view last : Key → Option Value} {f : Key → Option Value} (ops : List Op) (c : LruCache)

/-- The value a cache has for the key. -/
def LruCache.contents (key : Key) : Option Value := (c.items key).map (·.value)

/-- No write of the key waits. -/
def LruCache.Settled (key : Key) : Prop :=
  ∀ e ∈ c.waiting, e.dirty = true → e.key ≠ key

theorem contents_of_update {o : Option CacheEntry} (h : l2'.items = update l2.items key o) :
    l2'.contents = update l2.contents key (o.map (·.value)) := by
  show Option.map (·.value) ∘ l2'.items = _
  rw [h, comp_update]
  rfl

def LruCache.queued (key : Key) : List CacheEntry :=
  c.waiting.filter fun e => e.dirty && e.key == key

variable {c}

theorem settled_iff : c.Settled key ↔ c.queued key = [] := by
  simp [Settled, queued, filter_eq_nil_iff]

theorem queued_evict (c : LruCache) (e : CacheEntry) (key : Key) :
    ((c.remove e).enqueueEvict e).queued key =
      c.queued key ++ [e].filter fun e => e.dirty && e.key == key := by
  simp [queued, waiting, remove, enqueueEvict]

/-- What the levels know of a key fits what was put last: its entry in the first level, its dirty
entries that wait, and its value in the second level. -/
structure Agree (item : Option CacheEntry) (queued : List CacheEntry)
    (view last : Option Value) : Prop where
  held : ∀ e ∈ item, e.failCount = 0 ∧ last = some e.value
  waiting : ∀ e ∈ queued, item = none ∧ last = some e.value
  synced : (∀ e ∈ item, e.dirty = false) → queued = [] → view = last

theorem Agree.queued_eq_nil {queued : List CacheEntry} {view last : Option Value}
    (h : Agree (some e) queued view last) : queued = [] :=
  eq_nil_iff_forall_not_mem.2 fun e' he' => nomatch (h.waiting e' he').1

/-- The first level and the values of the second one hold what was put last. -/
structure Consistent (l1 : LruCache) (view last : Key → Option Value) : Prop where
  coherent : l1.Coherent
  agree : ∀ key, Agree (l1.items key) (l1.queued key) (view key) (last key)

namespace Consistent

variable (h : Consistent l1 view last)
include h

theorem held (he : l1.items key = some e) : last key = some e.value :=
  ((h.agree key).held e he).2

theorem absent (he : l1.items key = none) (hq : l1.queued key = []) : view key = last key :=
  (h.agree key).synced (by simp [he]) hq

theorem queued_eq_nil (he : l1.items key = some e) : l1.queued key = [] :=
  Agree.queued_eq_nil (he ▸ h.agree key)

theorem congr (hcoherent : l1'.Coherent)
    (hitems : l1'.items = l1.items) (hwaiting : l1'.waiting = l1.waiting) :
    Consistent l1' view last := by
  refine ⟨hcoherent, fun key => ?_⟩
  rw [hitems, queued, hwaiting]
  exact h.agree key

theorem change {v w : Option Value} (hcoherent : l1'.Coherent)
    (hitems : ∀ k ≠ key, l1'.items k = l1.items k) (hqueued : ∀ k ≠ key, l1'.queued k = l1.queued k)
    (hkey : Agree (l1'.items key) (l1'.queued key) v w) :
    Consistent l1' (update view key v) (update last key w) := by
  refine ⟨hcoherent, fun k => ?_⟩
  by_cases hk : k = key
  · subst hk
    rwa [update_self, update_self]
  · rw [update_of_ne hk, update_of_ne hk, hitems k hk, hqueued k hk]
    exact h.agree k

/-- A dirty entry that is evicted waits; one that is clean is in the second level. -/
theorem evict (he : l1.items e.key = some e) :
    Consistent ((l1.remove e).enqueueEvict e) view last := by
  have hitem : ((l1.remove e).enqueueEvict e).items e.key = none := update_self ..
  have hkey : Agree (((l1.remove e).enqueueEvict e).items e.key)
      (((l1.remove e).enqueueEvict e).queued e.key) (view e.key) (last e.key) := by
    rw [hitem, queued_evict, h.queued_eq_nil he, nil_append]
    refine ⟨nofun, fun e' he' => ⟨rfl, ?_⟩, fun _ hclean => ?_⟩
    · rw [mem_singleton.1 (mem_filter.1 he').1, h.held he]
    · refine (h.agree e.key).synced ?_ (h.queued_eq_nil he)
      simpa [he] using hclean
  simpa using h.change ((h.coherent.remove he).enqueueEvict e) (fun k hk => update_of_ne hk ..)
    (fun k hk => by simp [queued_evict, hk.symm]) hkey

theorem view_update (hlast : last key = some value) :
    Consistent l1 (update view key (some value)) last := by
  have hkey : Agree (l1.items key) (l1.queued key) (some value) (last key) :=
    { h.agree key with synced := fun _ _ => hlast.symm }
  simpa using h.change h.coherent (fun _ _ => rfl) (fun _ _ => rfl) hkey

section

variable (hqueued : l1.queued key = [])
include hqueued

theorem makeRoom (hnone : l1.items key = none) (newSize n : Nat) :
    Consistent (makeRoom newSize n l1) view last ∧
      (makeRoom newSize n l1).items key = none ∧ (makeRoom newSize n l1).queued key = [] := by
  refine makeRoom_induct (P := fun c => Consistent c view last ∧ c.items key = none ∧
    c.queued key = []) (fun c c' ⟨hc, hnone, hqueued⟩ hevict => ?_) newSize n ⟨h, hnone, hqueued⟩
  obtain ⟨e, he, rfl⟩ := hc.coherent.evictOneLocked hevict
  have hkey : key ≠ e.key := by
    rintro rfl
    rw [hnone] at he
    cases he
  refine ⟨hc.evict he, (update_of_ne hkey ..).trans hnone, ?_⟩
  simp [queued_evict, hqueued, hkey.symm]

/-- The entry of a key is replaced, when none of its dirty entries waits. -/
theorem write {view' : Option Value} (entry : CacheEntry) (hcoherent : l1'.Coherent)
    (hitems : l1'.items = update l1.items key (some entry)) (hwaiting : l1'.waiting = l1.waiting)
    (hretries : entry.failCount = 0) (hclean : entry.dirty = false → view' = some entry.value) :
    Consistent l1' (update view key view') (update last key (some entry.value)) := by
  have hsame : l1'.queued = l1.queued := by
    funext k
    rw [queued, hwaiting, queued]
  refine h.change hcoherent (fun k hk => by rw [hitems, update_of_ne hk]) (fun k _ => by rw [hsame]) ?_
  rw [hitems, update_self, hsame, hqueued]
  exact ⟨by simp [hretries], nofun, fun hd _ => hclean (hd entry rfl)⟩

theorem put_cases (value : Value) :
    ∃ c, Consistent c view last ∧ c.queued key = [] ∧ (l1.put key value).Coherent ∧
      (l1.put key value).items = update c.items key (some (newEntry key value)) ∧
      (l1.put key value).waiting = c.waiting := by
  unfold LruCache.put
  split
  next old hold =>
    exact ⟨l1, h, hqueued, h.coherent.replace (newEntry key value) hold rfl, rfl, rfl⟩
  next hnone =>
    obtain ⟨hroom, hnone', hqueued'⟩ :=
      h.makeRoom hqueued hnone value.length l1.orderList.length
    exact ⟨_, hroom, hqueued', hroom.coherent.insert (newEntry key value) hnone' rfl, rfl, rfl⟩

theorem put (value : Value) :
    Consistent ((l1.put key value).modify key fun e => { e with dirty := true, failCount := 0 })
      view (update last key (some value)) := by
  obtain ⟨c, hc, hqueued', hcoherent, hitems, hwaiting⟩ := h.put_cases hqueued value
  have hentry : (l1.put key value).items key = some (newEntry key value) := by
    rw [hitems, update_self]
  have hmodify := modify_eq hentry fun e => { e with dirty := true, failCount := 0 }
  rw [← update_eq_self key view]
  refine hc.write hqueued' { newEntry key value with dirty := true }
    (hcoherent.modify fun e => ⟨rfl, rfl, rfl⟩) ?_ ?_ rfl nofun
  · rw [hmodify, hitems, update_idem]
    rfl
  · rw [hmodify]
    exact hwaiting

theorem fill (hnone : l1.items key = none) (hview : view key = some value) :
    Consistent (l1.put key value) view last := by
  have hlast : last key = some value := by rw [← h.absent hnone hqueued, hview]
  obtain ⟨c, hc, hqueued', hcoherent, hitems, hwaiting⟩ := h.put_cases hqueued value
  have hwrite := hc.write hqueued' (newEntry key value) hcoherent hitems hwaiting rfl fun _ => hview
  rwa [update_eq_self, update_eq_self_iff.2 hlast.symm] at hwrite

/-- The entry is clean when it is put into the queue. -/
theorem delete :
    Consistent ((l1.clearDirty key).delete key) (update view key none) (update last key none) := by
  have hdelete : ((l1.clearDirty key).delete key).items = update l1.items key none ∧
      ((l1.clearDirty key).delete key).queued = l1.queued := by
    cases he : l1.items key with
    | none => simp [clearDirty, LruCache.modify, LruCache.delete, he]
    | some e =>
      obtain rfl := h.coherent.key_eq he
      simp [clearDirty, LruCache.modify, LruCache.delete, he, remove, enqueueEvict, funext_iff,
        queued, waiting]
  obtain ⟨hitems, hsame⟩ := hdelete
  refine h.change ((h.coherent.clearDirty key).delete key)
    (fun k hk => by rw [hitems, update_of_ne hk]) (fun k _ => by rw [hsame]) ?_
  rw [hitems, update_self, hsame, hqueued]
  exact ⟨by simp, forall_mem_nil _, fun _ _ => rfl⟩

end

theorem flush (he : l1.items key = some entry) (hcoherent : l1'.Coherent)
    (hitems : l1'.items = update l1.items key
      (some { entry with dirty := false, failCount := 0 }))
    (hwaiting : l1'.waiting = l1.waiting) :
    Consistent l1' (update view key (some entry.value)) last := by
  have hwrite := h.write (h.queued_eq_nil he) _ hcoherent hitems hwaiting rfl fun _ => rfl
  have hsame : update last key (some entry.value) = last := update_eq_self_iff.2 (h.held he).symm
  rwa [hsame] at hwrite

theorem pop {taken : List CacheEntry} (htaken : l1.taken = entry :: taken)
    (hview : entry.dirty = true → view entry.key = last entry.key) :
    Consistent { l1 with taken } view last := by
  refine ⟨h.coherent.congr rfl rfl rfl rfl, fun k => ?_⟩
  obtain ⟨held, waiting, synced⟩ := h.agree k
  have hqueued : l1.queued k = ([entry].filter fun e => e.dirty && e.key == k) ++
      { l1 with taken }.queued k := by
    simp only [queued, LruCache.waiting, htaken, ← filter_append]
    rfl
  rw [hqueued] at waiting synced
  refine ⟨held, fun e he => waiting e (mem_append_right _ he), fun hd hnil => ?_⟩
  by_cases hdirty : entry.dirty = true ∧ entry.key = k
  · obtain ⟨hdirty, rfl⟩ := hdirty
    exact hview hdirty
  · exact synced hd (by simp_all)

end Consistent

/-! ## Room in the second level -/

/-- All keys are among the given ones, and no value is longer than the bound of its key. -/
def Within (keys : List Key) (bound : Key → Nat) (f : Key → Option Value) : Prop :=
  ∀ key value, f key = some value → key ∈ keys ∧ value.length ≤ bound key

/-- The level can hold all keys with values up to their bounds. -/
def LruCache.Roomy (keys : List Key) (bound : Key → Nat) : Prop :=
  match c.capacityMode with
  | .count => keys.length ≤ c.capacity
  | .bytes => ((keys.map bound).sum : Int) ≤ c.capacity

variable {keys : List Key} {bound : Key → Nat}

theorem Within.update (h : Within keys bound f) (hkey : key ∈ keys)
    (hvalue : value.length ≤ bound key) :
    Within keys bound (update f key (some value)) := by
  intro k v hk
  rcases cases_of_update_some hk with ⟨rfl, rfl⟩ | ⟨-, hk⟩
  · exact ⟨hkey, hvalue⟩
  · exact h k v hk

theorem Within.update_none (h : Within keys bound f) :
    Within keys bound (Function.update f key none) := by
  intro k v hk
  obtain ⟨-, hk⟩ := ne_of_update_none hk
  exact h k v hk

theorem not_isOverCapacity (hc : l2.Coherent) (hwithin : Within keys bound l2.contents)
    (hroomy : l2.Roomy keys bound) (hkey : key ∈ keys) (hvalue : value.length ≤ bound key)
    (hnone : l2.items key = none) : l2.isOverCapacity value.length = false := by
  have hmem : ∀ k ∈ l2.orderList, ∃ e, l2.items k = some e ∧ k ∈ keys ∧ e.size ≤ bound k := by
    intro k hk
    obtain ⟨e, he⟩ := (hc.mem_iff k).mp hk
    obtain ⟨hin, hle⟩ := hwithin k e.value (by simp [contents, he])
    exact ⟨e, he, hin, by rw [hc.size_eq he]; exact hle⟩
  have hsubperm : List.Subperm (key :: l2.orderList) keys := by
    refine subperm_of_subset (nodup_cons.mpr ⟨hc.notMem hnone, hc.nodup⟩) ?_
    exact cons_subset.mpr ⟨hkey, fun k hk => (hmem k hk).choose_spec.2.1⟩
  unfold Roomy at hroomy
  unfold isOverCapacity
  cases hmode : l2.capacityMode with
  | count =>
    rw [hmode] at hroomy
    have hlength := hsubperm.length_le
    rw [length_cons] at hlength
    have hcount := hc.count_eq
    simp only [decide_eq_false_iff_not]
    omega
  | bytes =>
    rw [hmode] at hroomy
    obtain ⟨sub, hperm, hsub⟩ := hsubperm
    have hsum : bound key + (l2.orderList.map bound).sum ≤ (keys.map bound).sum := by
      rw [← sum_cons, ← map_cons, ← (hperm.map bound).sum_eq]
      exact (hsub.map bound).sum_le_sum fun _ _ => Nat.zero_le _
    have hsizes : (l2.orderList.map (sizeAt l2.items)).sum ≤
        ((l2.orderList.map bound).sum : Int) := by
      rw [Nat.cast_list_sum, List.map_map]
      refine sum_le_sum fun k hk => ?_
      obtain ⟨e, he, -, hle⟩ := hmem k hk
      rw [sizeAt_of_items he]
      exact Int.ofNat_le.mpr hle
    have hbytes := hc.bytes_eq
    simp only [decide_eq_false_iff_not]
    omega

theorem putWithoutEvictCallback_ok (hc : l2.Coherent) (hwithin : Within keys bound l2.contents)
    (hroomy : l2.Roomy keys bound) (hkey : key ∈ keys) (hvalue : value.length ≤ bound key) :
    ∃ l2', l2.putWithoutEvictCallback key value = some l2' ∧ l2'.Coherent ∧
      l2'.contents = update l2.contents key (some value) ∧ l2'.Roomy keys bound := by
  unfold putWithoutEvictCallback
  cases he : l2.items key with
  | some old =>
    have hreplace := hc.replace (newEntry key value) he rfl
    exact ⟨_, rfl, hreplace, contents_of_update (o := some (newEntry key value)) rfl, hroomy⟩
  | none =>
    rw [not_isOverCapacity hc hwithin hroomy hkey hvalue he]
    exact ⟨_, rfl, hc.insert (newEntry key value) he rfl,
      contents_of_update (o := some (newEntry key value)) rfl, hroomy⟩

/-! ## Steps of the cache -/

/-- What the last calls say about each key. -/
def Op.apply (last : Key → Option Value) : Op → Key → Option Value
  | .put key (some value) => if key = [] then last else update last key (some value)
  | .delete key => if key = [] then last else update last key none
  | _ => last

theorem Op.apply_put (last : Key → Option Value) (key : Key) (value : Value) :
    apply last (.put key (some value)) =
      if key = [] then last else update last key (some value) := rfl

theorem Op.apply_delete (last : Key → Option Value) (key : Key) :
    apply last (.delete key) = if key = [] then last else update last key none := rfl

/-- What was written last, for every key. -/
def lastWrites : Key → Option Value := ops.foldl apply fun _ => none

/-- What a call writes. -/
def Op.written : Op → Option (Key × Value)
  | .put key (some value) => if key = [] then none else some (key, value)
  | _ => none

/-- The keys that are written. -/
def writtenKeys : List Key := ((ops.filterMap written).map (·.1)).dedup

/-- The size of the largest value of a key. -/
def largest (key : Key) : Nat :=
  (((ops.filterMap written).filter (·.1 = key)).map (·.2.length)).foldr max 0

/-- A call is made for a key when no dirty entry of the key waits to be written to the second
level. -/
def TieredCache.Careful (tc : TieredCache) : Op → Prop
  | .put key _ => tc.l1.Settled key
  | .get key => tc.l1.Settled key
  | .delete key => tc.l1.Settled key
  | _ => True

/-- The steps of a run lead from one state to the other, and each meets the condition in the state
before it. All files can be written. -/
inductive Run (cond : TieredCache → Op → Prop) (start : TieredCache) :
    List Op → TieredCache → Prop
  | nil : Run cond start [] start
  | step {ops : List Op} {tc tc' : TieredCache} {op : Op} (hrun : Run cond start ops tc)
      (hcond : cond tc op) (hstep : tc.step (fun _ => true) op = some tc') :
      Run cond start (ops ++ [op]) tc'

/-- The invariant of the runs. -/
structure Inv (keys : List Key) (bound : Key → Nat) (tc : TieredCache)
    (last : Key → Option Value) : Prop where
  policy : tc.writePolicy = .writeBack
  consistent : Consistent tc.l1 tc.l2.contents last
  coherent : tc.l2.Coherent
  last_within : Within keys bound last
  contents_within : Within keys bound tc.l2.contents
  roomy : tc.l2.Roomy keys bound

namespace Inv

variable {tc tc' : TieredCache}

theorem new (capacity1 : Int) (mode1 : CapacityMode) {capacity2 : Int} {mode2 : CapacityMode}
    (hroomy : (LruCache.new capacity2 mode2).Roomy keys bound) :
    Inv keys bound (.new capacity1 mode1 capacity2 mode2 .writeBack) fun _ => none where
  policy := rfl
  consistent := ⟨coherent_new _ _, fun _ => ⟨nofun, nofun, fun _ _ => rfl⟩⟩
  coherent := coherent_new _ _
  last_within := nofun
  contents_within := nofun
  roomy := hroomy

/-- What was put last is written to the second level. -/
theorem write (h : Inv keys bound tc last) (hlast : last key = some value) :
    ∃ l2, tc.l2.putWithoutEvictCallback key value = some l2 ∧ Inv keys bound { tc with l2 } last ∧
        l2.contents = update tc.l2.contents key (some value) := by
  obtain ⟨hkey, hvalue⟩ := h.last_within key value hlast
  obtain ⟨l2, hput, hcoherent, hcontents, hroomy⟩ :=
    putWithoutEvictCallback_ok h.coherent h.contents_within h.roomy hkey hvalue
  refine ⟨l2, hput, ⟨h.policy, ?_, hcoherent, h.last_within, ?_, hroomy⟩, hcontents⟩
  · rw [hcontents]
    exact h.consistent.view_update hlast
  · rw [hcontents]
    exact h.contents_within.update hkey hvalue

theorem put (h : Inv keys bound tc last) (hsettled : tc.l1.Settled key) (value : Option Value)
    (hwithin : Within keys bound (apply last (.put key value))) :
    Inv keys bound (tc.put (fun _ => true) key value).2 (apply last (.put key value)) := by
  unfold TieredCache.put
  cases value with
  | none => split <;> exact h
  | some value =>
    rw [apply_put] at hwithin ⊢
    by_cases hkey : key = []
    · rw [if_pos hkey, if_pos hkey]
      exact h
    · rw [if_neg hkey] at hwithin
      rw [if_neg hkey, if_neg hkey, h.policy]
      exact ⟨rfl, h.consistent.put (settled_iff.1 hsettled) value, h.coherent, hwithin, h.contents_within, h.roomy⟩

theorem get (h : Inv keys bound tc last) (hsettled : tc.l1.Settled key) :
    Inv keys bound (tc.get key).2 last ∧ (key ≠ [] → (tc.get key).1 =
        match last key with
        | some value => .ok value
        | none => .error .keyNotFound) := by
  unfold TieredCache.get
  split
  next hempty => exact ⟨h, fun hkey => absurd hempty hkey⟩
  next hkey =>
    unfold LruCache.get
    cases he : tc.l1.items key with
    | some e =>
      refine ⟨{ h with consistent := ?_ }, fun _ => ?_⟩
      · exact h.consistent.congr (h.consistent.coherent.moveToFront he) rfl rfl
      · rw [h.consistent.held he]
    | none =>
      have habsent := h.consistent.absent he (settled_iff.1 hsettled)
      unfold contents at habsent
      cases he' : tc.l2.items key with
      | some e =>
        rw [he', map_some] at habsent
        refine ⟨{ h with consistent := ?_, coherent := h.coherent.moveToFront he' }, fun _ => ?_⟩
        · exact h.consistent.fill (settled_iff.1 hsettled) he (by simp [contents, he'])
        · rw [← habsent]
      | none =>
        rw [he', map_none] at habsent
        refine ⟨h, fun _ => ?_⟩
        rw [← habsent]

theorem contents_delete (hc : l2.Coherent) (key : Key) :
    (l2.delete key).contents = update l2.contents key none := by
  unfold LruCache.delete
  cases he : l2.items key with
  | none => exact (update_eq_self_iff.mpr (by simp [contents, he])).symm
  | some e =>
    obtain rfl := hc.key_eq he
    exact contents_of_update (o := none) rfl

theorem roomy_delete (h : l2.Roomy keys bound) (key : Key) : (l2.delete key).Roomy keys bound := by
  unfold LruCache.delete
  cases l2.items key with
  | none => exact h
  | some e => exact h

variable (h : Inv keys bound tc last)
include h

theorem delete (hsettled : tc.l1.Settled key) :
    Inv keys bound (tc.delete key).2 (apply last (.delete key)) := by
  unfold TieredCache.delete
  rw [apply_delete]
  by_cases hkey : key = []
  · rw [if_pos hkey, if_pos hkey]
    exact h
  · rw [if_neg hkey, if_neg hkey]
    refine ⟨h.policy, ?_, h.coherent.delete key, h.last_within.update_none, ?_,
      roomy_delete h.roomy key⟩
    · show Consistent _ (tc.l2.delete key).contents _
      rw [contents_delete h.coherent]
      exact h.consistent.delete (settled_iff.1 hsettled)
    · show Within keys bound (tc.l2.delete key).contents
      rw [contents_delete h.coherent]
      exact h.contents_within.update_none

theorem flushEntry (he : tc.l1.items key = some entry) :
    Inv keys bound (tc.flushEntry (fun _ => true) entry) last := by
  have hkey := h.consistent.coherent.key_eq he
  subst hkey
  have hretry : ¬ entry.failCount + 1 > maxWriteBackRetries := by
    rw [((h.consistent.agree _).held entry he).1]
    decide
  obtain ⟨l2, hput, hinv, hcontents⟩ := h.write (h.consistent.held he)
  have hmodify := modify_eq he fun e => { e with failCount := entry.failCount + 1 }
  have hclear : (tc.l1.modify entry.key
      fun e => { e with failCount := entry.failCount + 1 }).clearDirty entry.key =
        { tc.l1 with
          items := update tc.l1.items entry.key
            (some { entry with dirty := false, failCount := 0 }) } := by
    rw [hmodify, clearDirty, modify_eq (update_self ..)]
    rw [update_idem]
  have hcoherent : ((tc.l1.modify entry.key
      fun e => { e with failCount := entry.failCount + 1 }).clearDirty entry.key).Coherent := by
    refine (h.consistent.coherent.modify ?_).modify ?_
    · exact fun e => ⟨rfl, rfl, rfl⟩
    · exact fun e => ⟨rfl, rfl, rfl⟩
  unfold flushEntry
  rw [if_neg hretry]
  unfold writeToL2
  rw [if_pos rfl]
  dsimp only
  rw [hput]
  refine { hinv with consistent := ?_ }
  rw [hcontents]
  refine h.consistent.flush he hcoherent ?_ ?_
  · rw [hclear]
  · rw [hclear]
    rfl

theorem flushWriteBack (keys' : List Key) :
    Inv keys bound (tc.flushWriteBack (fun _ => true) keys') last := by
  refine foldlRecOn (motive := fun tc => Inv keys bound tc last) keys' _ h fun tc h key _ => ?_
  split
  next entry he => exact h.flushEntry he
  next => exact h

theorem handleL1 {taken : List CacheEntry} (htaken : tc.l1.taken = entry :: taken) :
    Inv keys bound ({ tc with l1 := { tc.l1 with taken } }.handleL1Eviction (fun _ => true) entry)
      last := by
  unfold handleL1Eviction
  split
  next hd =>
    have hlast := ((h.consistent.agree entry.key).waiting entry (by simp [queued, waiting, htaken, hd])).2
    obtain ⟨l2, hput, hinv, hcontents⟩ := h.write hlast
    unfold writeToL2
    rw [if_pos rfl]
    dsimp only
    rw [hput]
    refine { hinv with consistent := ?_ }
    refine hinv.consistent.pop htaken fun _ => ?_
    rw [hcontents, update_self, hlast]
  next hd =>
    exact { h with consistent := h.consistent.pop htaken fun hd' => absurd hd' hd }

/-- Every careful step keeps the invariant. -/
theorem step {op : Op} (hcareful : tc.Careful op) (hwithin : Within keys bound (apply last op))
    (hstep : tc.step (fun _ => true) op = some tc') : Inv keys bound tc' (apply last op) := by
  cases op with
  | put key value =>
    cases hstep
    exact h.put hcareful value hwithin
  | get key =>
    cases hstep
    exact (h.get hcareful).1
  | delete key =>
    cases hstep
    exact h.delete hcareful
  | flush keys' =>
    obtain ⟨-, rfl⟩ : _ ∧ _ := by simpa [TieredCache.step] using hstep
    exact h.flushWriteBack keys'
  | takeL1 =>
    obtain ⟨l1, hl1, rfl⟩ := map_eq_some_iff.1 hstep
    obtain ⟨htaken, rfl⟩ := takeQueue_eq_some.1 hl1
    refine { h with
      consistent := h.consistent.congr (h.consistent.coherent.congr rfl rfl rfl rfl) rfl ?_ }
    simp [waiting, htaken]
  | handleL1 =>
    obtain ⟨⟨entry, l1⟩, hnext, rfl⟩ := map_eq_some_iff.1 hstep
    obtain ⟨taken, htaken, rfl⟩ := nextTaken_eq_some.1 hnext
    exact h.handleL1 htaken
  | takeL2 =>
    obtain ⟨l2, hl2, rfl⟩ := map_eq_some_iff.1 hstep
    obtain ⟨-, rfl⟩ := takeQueue_eq_some.1 hl2
    exact { h with coherent := h.coherent.congr rfl rfl rfl rfl }
  | handleL2 =>
    obtain ⟨⟨entry, l2⟩, hnext, rfl⟩ := map_eq_some_iff.1 hstep
    obtain ⟨taken, -, rfl⟩ := nextTaken_eq_some.1 hnext
    exact { h with coherent := h.coherent.congr rfl rfl rfl rfl }

end Inv

/-! ## Runs -/

theorem mem_writtenKeys {ops : List Op} (h : (key, value) ∈ ops.filterMap written) :
    key ∈ writtenKeys ops :=
  mem_dedup.mpr (mem_map.mpr ⟨(key, value), h, rfl⟩)

theorem length_le_largest {ops : List Op} (h : (key, value) ∈ ops.filterMap written) :
    value.length ≤ largest ops key :=
  le_max_of_le' 0 (mem_map.mpr ⟨(key, value), mem_filter.mpr ⟨h, by simp⟩, rfl⟩) le_rfl

theorem lastWrites_concat (op : Op) : lastWrites (ops ++ [op]) = apply (lastWrites ops) op := by
  unfold lastWrites
  rw [foldl_append]
  rfl

theorem Op.apply_cases {op : Op} (h : apply last op key = some value) :
    last key = some value ∨ written op = some (key, value) := by
  cases op with
  | put k v =>
    cases v with
    | none => exact .inl h
    | some v =>
      rw [apply_put] at h
      split at h
      next hempty => exact .inl h
      next hempty =>
        rcases cases_of_update_some h with ⟨rfl, rfl⟩ | ⟨-, h⟩
        · exact .inr (if_neg hempty)
        · exact .inl h
  | delete k =>
    rw [apply_delete] at h
    split at h
    next => exact .inl h
    next => exact .inl (ne_of_update_none h).2
  | get | flush | takeL1 | handleL1 | takeL2 | handleL2 => exact .inl h

theorem lastWrites_written {key : Key} {value : Value}
    (h : lastWrites ops key = some value) : (key, value) ∈ ops.filterMap written := by
  induction ops using reverseRecOn with
  | nil => cases h
  | append_singleton ops op ih =>
    rw [lastWrites_concat] at h
    rw [filterMap_append, mem_append]
    rcases apply_cases h with h | h
    · exact .inl (ih h)
    · exact .inr (mem_filterMap.mpr ⟨op, mem_singleton.mpr rfl, h⟩)

theorem lastWrites_within {ops all : List Op} (h : ops <+: all) :
    Within (writtenKeys all) (largest all) (lastWrites ops) := by
  intro key value hlast
  have hmem := (h.sublist.filterMap written).subset (lastWrites_written ops hlast)
  exact ⟨mem_writtenKeys hmem, length_le_largest hmem⟩

theorem Run.inv {start tc : TieredCache} {ops all : List Op}
    (hstart : Inv (writtenKeys all) (largest all) start fun _ => none)
    (hrun : Run Careful start ops tc) (h : ops <+: all) :
    Inv (writtenKeys all) (largest all) tc (lastWrites ops) := by
  induction hrun with
  | nil => exact hstart
  | @step ops tc tc' op hrun hcareful hstep ih =>
    have hinv := ih ((prefix_append ops [op]).trans h)
    have hwithin := lastWrites_within h
    rw [lastWrites_concat] at hwithin ⊢
    exact hinv.step hcareful hwithin hstep

/-- If no call is made for a key while a dirty entry of it waits, and the second level has room for
all keys, `Get` returns the value that was put last, and `ErrKeyNotFound` for a key without one. -/
theorem writeBack_get {capacity1 capacity2 : Int} {mode1 mode2 : CapacityMode} {ops : List Op}
    {tc : TieredCache}
    (hroomy : (LruCache.new capacity2 mode2).Roomy (writtenKeys ops) (largest ops))
    (hrun : Run Careful (.new capacity1 mode1 capacity2 mode2 .writeBack) ops tc)
    {key : Key} (hkey : key ≠ []) (hcareful : tc.Careful (.get key)) :
    (tc.get key).1 =
      match lastWrites ops key with
      | some value => .ok value
      | none => .error .keyNotFound :=
  ((hrun.inv (Inv.new capacity1 mode1 hroomy) prefix_rfl).get hcareful).2 hkey

/-- The state after some steps that meet the condition. -/
def TieredCache.steps (cond : TieredCache → Op → Prop) [∀ tc op, Decidable (cond tc op)]
    (tc : TieredCache) : List Op → Option TieredCache
  | [] => some tc
  | op :: ops =>
    if cond tc op then (tc.step (fun _ => true) op).bind fun tc => tc.steps cond ops else none

theorem Run.steps {cond : TieredCache → Op → Prop} [∀ tc op, Decidable (cond tc op)]
    {start tc tc' : TieredCache} {before : List Op} (hrun : Run cond start before tc)
    (h : tc.steps cond ops = some tc') : Run cond start (before ++ ops) tc' := by
  induction ops generalizing before tc with
  | nil =>
    cases h
    rwa [append_nil]
  | cons op ops ih =>
    rw [TieredCache.steps, ite_none_right_eq_some, bind_eq_some_iff] at h
    obtain ⟨hcond, mid, hmid, h⟩ := h
    rw [append_cons]
    exact ih (.step hrun hcond hmid) h

instance (c : LruCache) (key : Key) : Decidable (c.Settled key) :=
  inferInstanceAs (Decidable (∀ e ∈ c.waiting, e.dirty = true → e.key ≠ key))

instance (tc : TieredCache) : (op : Op) → Decidable (tc.Careful op)
  | .put key _ => inferInstanceAs (Decidable (tc.l1.Settled key))
  | .get key => inferInstanceAs (Decidable (tc.l1.Settled key))
  | .delete key => inferInstanceAs (Decidable (tc.l1.Settled key))
  | .flush _ => instDecidableTrue
  | .takeL1 => instDecidableTrue
  | .handleL1 => instDecidableTrue
  | .takeL2 => instDecidableTrue
  | .handleL2 => instDecidableTrue

/-- The first level holds one entry: `a` is evicted, written to the second level, and read from
there. -/
theorem writeBack_get_evicted : ∃ tc, Run Careful (.new 1 .count 100 .count .writeBack)
        [.put [97] (some [1]), .put [98] (some [2]), .takeL1, .handleL1] tc ∧
      (tc.get [97]).1 = .ok [1] := by
  have hrun : ∃ tc, (new 1 .count 100 .count .writeBack).steps Careful
      [.put [97] (some [1]), .put [98] (some [2]), .takeL1, .handleL1] = some tc ∧
        tc.Careful (.get [97]) := ⟨_, rfl, by decide⟩
  obtain ⟨tc, hsteps, hcareful⟩ := hrun
  have hrun := Run.steps _ .nil hsteps
  exact ⟨tc, hrun, writeBack_get (by show (_ : Int) ≤ _; decide) hrun (by decide) hcareful⟩

/-- `a` is not found while its entry waits; deleted in the meantime, it is found afterwards. -/
theorem not_writeBack_get_waiting :
    (∃ tc, Run (fun _ _ => True) (.new 1 .count 100 .count .writeBack)
        [.put [97] (some [1]), .put [98] (some [2])] tc ∧
      (tc.get [97]).1 = .error .keyNotFound ∧
      lastWrites [.put [97] (some [1]), .put [98] (some [2])] [97] = some [1]) ∧
    ∃ tc, Run (fun _ _ => True) (.new 1 .count 100 .count .writeBack)
        [.put [97] (some [1]), .put [98] (some [2]), .delete [97], .takeL1, .handleL1] tc ∧
      (tc.get [97]).1 = .ok [1] ∧
      lastWrites [.put [97] (some [1]), .put [98] (some [2]), .delete [97], .takeL1, .handleL1]
        [97] = none :=
  ⟨⟨_, Run.steps _ .nil rfl, by decide, by decide⟩, _, Run.steps _ .nil rfl, by decide, by decide⟩

end Solocoder.Tiered
