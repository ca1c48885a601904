import Solocoder.StreamProc.Window

/-!
# What `Stop` flushes

The first closing moves the second window to the front of the array, which the loop has passed.
With three windows or more it is lost; with two it is still at the end of the array.
-/

namespace Solocoder.StreamProc

open List

/-- A time window with the records added since it was opened, and their values. -/
structure Window where
  id : String
  start : Int
  stop : Int
  records : List (Record × Float)
  nonempty : 0 < records.length

/-- The bucket that the records make. -/
def Window.bucket (x : Window) : WindowBucket :=
  x.records.foldl (fun b r => b.add r.1 r.2) (newWindowBucket x.id x.start x.stop)

/-- The number of the records, the sum and the extremes of their values, and their ids, on top of
what the bucket has. -/
def WindowBucket.summary (b : WindowBucket) (records : List (Record × Float)) : WindowBucket :=
  { b with
    sum := (records.map (·.2)).foldl (· + ·) b.sum
    count := b.count + records.length
    min := (records.map (·.2)).foldl (fun m v => if v < m then v else m) b.min
    max := (records.map (·.2)).foldl (fun m v => if v > m then v else m) b.max
    recordIDs := b.recordIDs ++ (records.map (·.1.id)).filter (· ≠ "")
    startSeq := (records.map (·.1.seqID)).foldl (fun s n => if s = 0 ∨ n < s then n else s) b.startSeq
    endSeq := (records.map (·.1.seqID)).foldl (fun s n => if n > s then n else s) b.endSeq }

/-- The bucket that should be emitted. -/
def Window.summary (x : Window) : WindowBucket :=
  (newWindowBucket x.id x.start x.stop).summary x.records

theorem foldl_add (records : List (Record × Float)) (b : WindowBucket) :
    records.foldl (fun b r => b.add r.1 r.2) b = b.summary records := by
  induction records generalizing b with
  | nil => simp [WindowBucket.summary]
  | cons r records ih =>
    have hcount : b.count + 1 + records.length = b.count + (records.length + 1) := by omega
    rw [foldl_cons, ih]
    by_cases hid : r.1.id = "" <;> simp [WindowBucket.summary, WindowBucket.add, hid, hcount]

theorem Window.bucket_eq (x : Window) : x.bucket = x.summary := foldl_add ..

theorem Window.bucket_id (x : Window) : x.bucket.id = x.id := by rw [x.bucket_eq]; rfl

theorem Window.count_pos (x : Window) : 0 < x.bucket.count := by
  have h := x.nonempty
  rw [x.bucket_eq]
  dsimp only [Window.summary, WindowBucket.summary, newWindowBucket]
  omega

namespace WindowAggregator

variable {w : WindowAggregator} {ws : List Window} {id : String}

/-- The open windows are `ws`. -/
structure Open (w : WindowAggregator) (ws : List Window) : Prop where
  order : w.bucketOrder = ws.map Window.id
  nodup : w.bucketOrder.Nodup
  buckets : w.buckets = fun id => (ws.find? (·.id = id)).map Window.bucket

/-- `Stop` puts out one result for each of the windows. -/
def Flushes (w : WindowAggregator) (ws : List Window) : Prop :=
  w.stop.results ~ w.results ++ ws.map fun x => w.result x.summary false

/-- `n` results are for the window `id`. -/
structure Told (n : Nat) (id : String) (w : WindowAggregator) : Prop where
  named : ∀ k b, w.buckets k = some b → b.id = k
  results : w.results.countP (·.windowID = id) = n

theorem Told.close {n : Nat} {k : String} (h : w.Told n id) (hk : k ≠ id) :
    (w.closeBucketLocked k).Told n id := by
  cases hb : w.buckets k with
  | none => grind [closeBucketLocked]
  | some b =>
  have hid := h.named k b hb
  refine ⟨fun j c hj => ?_, ?_⟩
  · rcases eq_or_ne j k with rfl | hne
    · simp [closeBucketLocked, hb] at hj
    · exact h.named j c (by simpa [closeBucketLocked, hb, hne] using hj)
  · grind [closeBucketLocked, send, result, h.results]

/-- The window `id` is at the front of the array, and nowhere else. -/
structure Skips (n : Nat) (id : String) (s : WindowAggregator × List String) : Prop
    extends s.1.Told n id where
  order : ∃ os, s.1.bucketOrder = id :: os ∧ id ∉ os ++ s.2

theorem Skips.turn {n : Nat} {s : WindowAggregator × List String} (h : Skips n id s)
    (i : Nat) : Skips n id (flushBucket s (i + 1)) := by
  obtain ⟨w, left⟩ := s
  obtain ⟨htold, os, ho, hos⟩ := h
  rw [flushBucket]
  cases hi : (w.bucketOrder ++ left)[i + 1]? with
  | none => exact ⟨htold, os, ho, hos⟩
  | some k =>
    dsimp only at ho
    simp only [ho, cons_append, getElem?_cons_succ] at hi ⊢
    have hk : k ≠ id := fun e => hos (e ▸ mem_of_getElem? hi)
    split
    next hc =>
      have horder : (w.closeBucketLocked k).bucketOrder = id :: os.erase k := by
        grind [closeBucketLocked]
      refine ⟨htold.close hk, _, horder, ?_⟩
      simp only [horder, length_cons, drop_succ_cons]
      grind
    next => exact ⟨htold, os, ho, hos⟩

theorem Skips.flush {n : Nat} {s : WindowAggregator × List String} (h : Skips n id s)
    (is : List Nat) : Skips n id ((is.map Nat.succ).foldl flushBucket s) := by
  induction is generalizing s with
  | nil => exact h
  | cons i is ih => exact ih (h.turn i)

theorem Open.told (h : w.Open ws) (id : String) :
    w.Told (w.results.countP (·.windowID = id)) id := by
  refine ⟨fun k b hb => ?_, rfl⟩
  rw [h.buckets] at hb
  obtain ⟨x, hx, rfl⟩ := Option.map_eq_some_iff.1 hb
  exact x.bucket_id.trans (by simpa using find?_some hx)

theorem Open.skips {a b c : Window} (h : w.Open (a :: b :: c :: ws)) :
    Skips (w.results.countP (·.windowID = b.id)) b.id (flushBucket (w, []) 0) := by
  have hnodup := h.order ▸ h.nodup
  have htold := (h.told b.id).close (k := a.id) (by grind)
  have hdrop : b.id ∉ (c.id :: ws.map Window.id).drop ws.length := fun hb => by
    have := mem_of_mem_drop hb
    grind
  have horder : (w.closeBucketLocked a.id).bucketOrder = b.id :: c.id :: ws.map Window.id := by
    simp [closeBucketLocked, h.order, h.buckets]
  have hturn : flushBucket (w, []) 0 =
      (w.closeBucketLocked a.id, (c.id :: ws.map Window.id).drop ws.length) := by
    simp [flushBucket, horder, h.order, h.buckets, a.count_pos]
  rw [hturn]
  exact ⟨htold, _, horder, by grind⟩

/-- The windows that start at `is`, with one record each. -/
def singles (is : List Int) : List Window :=
  is.map fun i => ⟨"win-" ++ toString i, i, i + 1, [(⟨"r", i⟩, 1)], Nat.one_pos⟩

def opened (ws : List Window) : WindowAggregator :=
  ⟨.tumblingTime, .sum, 0, fun id => (ws.find? (·.id = id)).map Window.bucket, ws.map Window.id, [],
    100, false⟩

end WindowAggregator

end Solocoder.StreamProc
