import Mathlib.Data.List.AList

/-!
# The key-value store of `internal/kvstore`

A call is a sequence of sections under locks, and the sections of different calls interleave;
`Restore` keeps the locks of all segments throughout. The hash, the size of the filter and its
number of hashes are parameters.
-/

namespace Solocoder.KeyValue

open List

/-- A Go string. -/
abbrev Bytes := List UInt8

structure BloomFilter where
  bitArray : List Bool
  size : UInt64
  hashCount : UInt64
  length_eq : bitArray.length = size.toNat
  size_pos : 0 < size.toNat

/-- `NewBloomFilter`, for the numbers that `optimalSize` and `optimalHashCount` give. -/
def newBloomFilter (size hashCount : UInt64) (hsize : 0 < size.toNat) : BloomFilter :=
  ⟨List.replicate size.toNat false, size, hashCount, length_replicate, hsize⟩

namespace BloomFilter

section

-- The numbers in the bytes 0 to 7 and 8 to 15 of the SHA-256 sum of a key.
variable (sum : Bytes → UInt64 × UInt64) (bf : BloomFilter) (key : Bytes)

def doubleHash (size : UInt64) : UInt64 × UInt64 :=
  ((sum key).1 % size, (sum key).2 % size)

/-- The indices of a key, in the order of the loops of `Add` and `MightContain`. -/
def indices : List Nat :=
  let (h1, h2) := doubleHash sum key bf.size
  (List.range bf.hashCount.toNat).map fun i => ((h1 + UInt64.ofNat i * h2) % bf.size).toNat

theorem length_setAll (indices : List Nat) (bits : List Bool) :
    (indices.foldl (fun bits i => bits.set i true) bits).length = bits.length := by
  induction indices generalizing bits with
  | nil => rfl
  | cons i indices ih => rw [foldl_cons, ih, length_set]

def add : BloomFilter :=
  { bf with
    bitArray := (bf.indices sum key).foldl (fun bits i => bits.set i true) bf.bitArray
    length_eq := (length_setAll _ _).trans bf.length_eq }

def mightContain : Bool :=
  (bf.indices sum key).all fun i => (bf.bitArray[i]?).getD false

end

def reset (bf : BloomFilter) : BloomFilter :=
  { bf with
    bitArray := bf.bitArray.map fun _ => false
    length_eq := length_map _ |>.trans bf.length_eq }

end BloomFilter

abbrev Data := AList fun _ : Bytes => Bytes

structure KVStore where
  segments : List Data
  bloomFilter : BloomFilter

def newKVStoreWithConfig (segmentCount : Int) (bloomFilter : BloomFilter) : KVStore :=
  ⟨List.replicate (if segmentCount ≤ 0 then 16 else segmentCount.toNat) ∅, bloomFilter⟩

/-- `fnv.New32a`. -/
def fnv32a (key : Bytes) : UInt32 :=
  key.foldl (fun h b => (h ^^^ b.toUInt32) * 16777619) 2166136261

namespace KVStore

variable (sum : Bytes → UInt64 × UInt64) (kv : KVStore) (key : Bytes)

def getSegmentIndex : Nat :=
  (fnv32a key % UInt32.ofNat kv.segments.length).toNat

/-- `seg.data[key] = value` in the segment of the key. -/
def store (key value : Bytes) : KVStore :=
  { kv with segments := kv.segments.modify (kv.getSegmentIndex key) (·.insert key value) }

/-- The section of `Put` under the lock of the filter. -/
def addKey : KVStore :=
  { kv with bloomFilter := kv.bloomFilter.add sum key }

/-- The section of `BatchPut` under the lock of the filter. -/
def addKeys (keys : List Bytes) : KVStore :=
  { kv with bloomFilter := keys.foldl (·.add sum) kv.bloomFilter }

/-- The section of `BatchPut` under the locks of segments. -/
def storeAll (pairs : Data) : KVStore :=
  pairs.entries.foldl (fun kv pair => kv.store pair.1 pair.2) kv

/-- The section of `Delete`. -/
def remove : KVStore :=
  { kv with segments := kv.segments.modify (kv.getSegmentIndex key) (·.erase key) }

/-- `Restore` up to the lock of the filter. -/
def clear : KVStore := { kv with segments := kv.segments.map fun _ => ∅ }

/-- The filter that `Restore` leaves. -/
def refill (snapshot : Data) : BloomFilter :=
  snapshot.keys.foldl (·.add sum) kv.bloomFilter.reset

/-- The section of `Restore` under the lock of the filter. -/
def fill (snapshot : Data) : KVStore :=
  { kv.storeAll snapshot with bloomFilter := kv.refill sum snapshot }

def get : Option Bytes :=
  if kv.bloomFilter.mightContain sum key then
    (kv.segments[kv.getSegmentIndex key]?).bind (·.lookup key)
  else none

end KVStore

/-- A call and how far it is. -/
inductive Call where
  | put (key value : Bytes)
  /-- `Put` behind its section for the filter. -/
  | putAdded (key value : Bytes)
  | batchPut (pairs : Data)
  /-- `BatchPut` behind its section for the filter. -/
  | batchAdded (pairs : Data)
  | delete (key : Bytes)
  | restore (snapshot : Option Data)
  /-- `Restore` with the locks of all segments, which it has emptied. -/
  | restoreCleared (snapshot : Data)
  | done

/-- The keys that a call has put into the filter and is about to store. -/
def Call.added : Call → List Bytes
  | .putAdded key _ => [key]
  | .batchAdded pairs => pairs.keys
  | _ => []

/-- The call holds the locks of all segments. -/
def Call.holdsAll : Call → Bool
  | .restoreCleared _ => true
  | _ => false

/-- A call that is made. -/
inductive Op where
  | put (key value : Bytes)
  | batchPut (pairs : Data)
  | delete (key : Bytes)
  | restore (snapshot : Option Data)

def Op.toCall : Op → Call
  | .put key value => .put key value
  | .batchPut pairs => .batchPut pairs
  | .delete key => .delete key
  | .restore snapshot => .restore snapshot

/-- What can happen: a call is made, or a call goes through its next section. -/
inductive Event where
  | call (op : Op)
  | advance (i : Nat)

/-- A store and the calls made on it. -/
structure System where
  kv : KVStore
  calls : List Call

namespace System

variable (sum : Bytes → UInt64 × UInt64) (s : System)

/-- Some `Restore` holds the locks of all segments. -/
def locked : Bool := s.calls.any Call.holdsAll

/-- The call `i` goes on as `call`, with the store `kv`. -/
def move (i : Nat) (call : Call) (kv : KVStore) : System := ⟨kv, s.calls.set i call⟩

/-- The next section of a call; a section that needs a lock that is held does not happen. -/
def advance (i : Nat) : Call → System
  | .put key value => s.move i (.putAdded key value) (s.kv.addKey sum key)
  | .putAdded key value => if s.locked then s else s.move i .done (s.kv.store key value)
  | .batchPut pairs =>
    if pairs.keys = [] then s.move i .done s.kv
    else s.move i (.batchAdded pairs) (s.kv.addKeys sum pairs.keys)
  | .batchAdded pairs => if s.locked then s else s.move i .done (s.kv.storeAll pairs)
  | .delete key => if s.locked then s else s.move i .done (s.kv.remove key)
  | .restore none => s.move i .done s.kv
  | .restore (some snapshot) =>
    if s.locked then s else s.move i (.restoreCleared snapshot) s.kv.clear
  | .restoreCleared snapshot => s.move i .done (s.kv.fill sum snapshot)
  | .done => s

def step : Event → System
  | .call op => { s with calls := s.calls ++ [op.toCall] }
  | .advance i =>
    match s.calls[i]? with
    | some call => s.advance sum i call
    | none => s

def run (events : List Event) : System := events.foldl (step sum) s

end System

end Solocoder.KeyValue
