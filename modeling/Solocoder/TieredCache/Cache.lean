import Solocoder.Lib.Text

/-!
# The two-level cache of `internal/tieredcache`

Each level is an LRU cache whose evicted entries wait in a queue until a goroutine handles them. The
second level also writes entries to files. An element of the order list is represented by its key.
-/

namespace Solocoder.Tiered

open Lib.Text Function

/-- A key. -/
abbrev Key := Str

/-- A value that is not nil. -/
abbrev Value := List UInt8

/-- The errors that `Get`, `Put` and `Delete` return. -/
inductive Err where
  | keyNotFound | nilValue | emptyKey | writeFailed
  deriving DecidableEq

inductive CapacityMode where
  | count | bytes
  deriving DecidableEq

inductive WritePolicy where
  | writeThrough | writeBack
  deriving DecidableEq

/-- `CacheEntry`; no function reads the time stamp. -/
structure CacheEntry where
  key : Key
  value : Value
  size : Nat
  dirty : Bool
  failCount : Nat
  deriving DecidableEq

/-- `lruCache`, with the entries that its goroutine has taken out of the queue and not handled
yet. -/
structure LruCache where
  capacity : Int
  capacityMode : CapacityMode
  items : Key → Option CacheEntry
  orderList : List Key
  count : Int
  totalBytes : Int
  evictQueue : List CacheEntry
  taken : List CacheEntry

namespace LruCache

/-- `newLRUCache`. -/
def new (capacity : Int) (capacityMode : CapacityMode) : LruCache where
  capacity := if capacity ≤ 0 then 1000 else capacity
  capacityMode := capacityMode
  items := fun _ => none
  orderList := []
  count := 0
  totalBytes := 0
  evictQueue := []
  taken := []

variable (c : LruCache) (key : Key) (entry : CacheEntry) (value : Value)

def moveToFront : LruCache :=
  { c with orderList := key :: c.orderList.erase key }

/-- The entry of a key, which then is the one used last. -/
def get : Option (CacheEntry × LruCache) :=
  match c.items key with
  | some entry => some (entry, c.moveToFront key)
  | none => none

def isOverCapacity (newSize : Nat) : Bool :=
  match c.capacityMode with
  | .count => c.count + 1 > c.capacity
  | .bytes => c.totalBytes + newSize > c.capacity

/-- Takes an entry out of the cache. -/
def remove : LruCache :=
  { c with
    items := update c.items entry.key none
    orderList := c.orderList.erase entry.key
    count := c.count - 1
    totalBytes := c.totalBytes - entry.size }

def enqueueEvict : LruCache :=
  { c with evictQueue := c.evictQueue ++ [entry] }

def evictOneLocked : Option LruCache :=
  match c.orderList.getLast? with
  | none => none
  | some key => (c.items key).map fun entry => (c.remove entry).enqueueEvict entry

/-- The loop of `put`, which evicts until the entry fits or nothing is left. There are as many turns
as entries at most. -/
def makeRoom (newSize : Nat) : Nat → LruCache → LruCache
  | 0, c => c
  | n + 1, c =>
    if c.isOverCapacity newSize then
      match c.evictOneLocked with
      | none => c
      | some c => makeRoom newSize n c
    else c

/-- The entry that `put` and `putWithoutEvictCallback` build. -/
def newEntry : CacheEntry := ⟨key, value, value.length, false, 0⟩

/-- The replacement of the entry of a key that is in the cache. -/
def replace (old entry : CacheEntry) : LruCache :=
  { c.moveToFront entry.key with
    items := update c.items entry.key (some entry)
    totalBytes := c.totalBytes - old.size + entry.size }

/-- The insertion of an entry in front. -/
def insert : LruCache :=
  { c with
    items := update c.items entry.key (some entry)
    orderList := entry.key :: c.orderList
    count := c.count + 1
    totalBytes := c.totalBytes + entry.size }

/-- A new entry makes room for itself; a replacement does not. -/
def put : LruCache :=
  match c.items key with
  | some old => c.replace old (newEntry key value)
  | none => (makeRoom value.length c.orderList.length c).insert (newEntry key value)

/-- `putWithoutEvictCallback`; none if there is no room. -/
def putWithoutEvictCallback : Option LruCache :=
  match c.items key with
  | some old => some (c.replace old (newEntry key value))
  | none => if c.isOverCapacity value.length then none else some (c.insert (newEntry key value))

/-- The entry of a key leaves the cache as an evicted one does. -/
def delete : LruCache :=
  match c.items key with
  | some entry => (c.remove entry).enqueueEvict entry
  | none => c

/-- The loop of `evictAll`, with as many turns as there are entries at most. -/
def evictAllLoop : Nat → LruCache → LruCache
  | 0, c => c
  | n + 1, c =>
    match c.evictOneLocked with
    | none => c
    | some c => evictAllLoop n c

def evictAll : LruCache := evictAllLoop c.orderList.length c

/-- The entries are forgotten and do not pass through the queue. -/
def clear : LruCache :=
  { c with items := fun _ => none, orderList := [], count := 0, totalBytes := 0 }

/-- A change of the entry of a key. -/
def modify (f : CacheEntry → CacheEntry) : LruCache :=
  match c.items key with
  | some entry => { c with items := update c.items key (some (f entry)) }
  | none => c

def clearDirty : LruCache :=
  c.modify key fun entry => { entry with dirty := false, failCount := 0 }

/-- `getDirtyEntries`, as keys; the order of the source is that of a map. -/
def dirtyKeys : List Key :=
  c.orderList.filter fun key => (c.items key).any (·.dirty)

/-- The part of `processEvictQueue` under the lock, which takes all entries of the queue. -/
def takeQueue : Option LruCache :=
  if c.taken = [] then some { c with taken := c.evictQueue, evictQueue := [] } else none

/-- The next entry of those that `processEvictQueue` has taken. -/
def nextTaken : Option (CacheEntry × LruCache) :=
  match c.taken with
  | [] => none
  | entry :: taken => some (entry, { c with taken })

/-- The entries that were evicted and not handled yet. -/
def waiting : List CacheEntry := c.taken ++ c.evictQueue

end LruCache

/-- `TieredCache` with the files of its directory. -/
structure TieredCache where
  l1 : LruCache
  l2 : LruCache
  writePolicy : WritePolicy
  files : Key → Option Value
  writeBackErrors : Nat

namespace TieredCache

/-- `NewTieredCacheWithConfig` with an empty directory. -/
def new (capacity1 : Int) (mode1 : CapacityMode) (capacity2 : Int) (mode2 : CapacityMode)
    (writePolicy : WritePolicy) : TieredCache :=
  ⟨.new capacity1 mode1, .new capacity2 mode2, writePolicy, fun _ => none, 0⟩

/-- `Get`: an entry of the second level is copied to the first one. -/
def get (tc : TieredCache) (key : Key) : Except Err Value × TieredCache :=
  if key = [] then (.error .emptyKey, tc)
  else
    match tc.l1.get key with
    | some (entry, l1) => (.ok entry.value, { tc with l1 })
    | none =>
      match tc.l2.get key with
      | some (entry, l2) => (.ok entry.value, { tc with l1 := tc.l1.put key entry.value, l2 })
      | none => (.error .keyNotFound, tc)

variable (tc : TieredCache) (disk : Key → Bool)

/-- `writeToL2`, where `disk` says whether the file of a key can be written. -/
def writeToL2 (key : Key) (value : Value) : Option TieredCache :=
  if disk key then some { tc with files := update tc.files key (some value) } else none

def deleteFromL2 (key : Key) : TieredCache :=
  { tc with files := update tc.files key none }

/-- `Put`; a value that is nil is none. -/
def put (tc : TieredCache) (disk : Key → Bool) (key : Key) (value : Option Value) :
    Except Err Unit × TieredCache :=
  if key = [] then (.error .emptyKey, tc)
  else
    match value with
    | none => (.error .nilValue, tc)
    | some value =>
      match tc.writePolicy with
      | .writeThrough =>
        let tc := { tc with l1 := tc.l1.put key value }
        match tc.writeToL2 disk key value with
        | none => (.error .writeFailed, tc)
        | some tc => (.ok (), { tc with l2 := tc.l2.put key value })
      | .writeBack =>
        (.ok (), { tc with
          l1 := (tc.l1.put key value).modify key fun entry =>
            { entry with dirty := true, failCount := 0 } })

/-- `Delete`: the entry leaves the first level as a clean one. -/
def delete (tc : TieredCache) (key : Key) : Except Err Unit × TieredCache :=
  if key = [] then (.error .emptyKey, tc)
  else
    let tc := { tc with l1 := (tc.l1.clearDirty key).delete key, l2 := tc.l2.delete key }
    (.ok (), tc.deleteFromL2 key)

def handleL1Eviction (entry : CacheEntry) : TieredCache :=
  if entry.dirty then
    match tc.writeToL2 disk entry.key entry.value with
    | none => { tc with writeBackErrors := tc.writeBackErrors + 1 }
    | some tc =>
      match tc.l2.putWithoutEvictCallback entry.key entry.value with
      | some l2 => { tc with l2 }
      | none => tc
  else tc

def handleL2Eviction (entry : CacheEntry) : TieredCache :=
  tc.deleteFromL2 entry.key

def maxWriteBackRetries : Nat := 3

/-- One turn of the loop of `flushWriteBack`, for an entry that is dirty in the first level. -/
def flushEntry (tc : TieredCache) (entry : CacheEntry) : TieredCache :=
  let failCount := entry.failCount + 1
  let tc := { tc with l1 := tc.l1.modify entry.key fun e => { e with failCount } }
  if failCount > maxWriteBackRetries then
    { tc with l1 := tc.l1.clearDirty entry.key, writeBackErrors := tc.writeBackErrors + 1 }
  else
    match tc.writeToL2 disk entry.key entry.value with
    | none => tc
    | some tc =>
      match tc.l2.putWithoutEvictCallback entry.key entry.value with
      | none => tc
      | some l2 => { tc with l1 := tc.l1.clearDirty entry.key, l2 }

/-- `flushWriteBack`, for an order of the dirty keys. -/
def flushWriteBack (keys : List Key) : TieredCache :=
  keys.foldl (fun tc key =>
    match tc.l1.items key with
    | some entry => tc.flushEntry disk entry
    | none => tc) tc

end TieredCache

/-- The calls of the cache, and the turns of the goroutines of the two levels. -/
inductive Op where
  | put (key : Key) (value : Option Value)
  | get (key : Key)
  | delete (key : Key)
  | flush (keys : List Key)
  | takeL1
  | handleL1
  | takeL2
  | handleL2

/-- A step of the cache with its goroutines; none if it is not possible. -/
def TieredCache.step (disk : Key → Bool) (tc : TieredCache) : Op → Option TieredCache
  | .put key value => some (tc.put disk key value).2
  | .get key => some (tc.get key).2
  | .delete key => some (tc.delete key).2
  | .flush keys =>
    if keys.Perm tc.l1.dirtyKeys then some (tc.flushWriteBack disk keys) else none
  | .takeL1 => tc.l1.takeQueue.map fun l1 => { tc with l1 }
  | .handleL1 => tc.l1.nextTaken.map fun r => { tc with l1 := r.2 }.handleL1Eviction disk r.1
  | .takeL2 => tc.l2.takeQueue.map fun l2 => { tc with l2 }
  | .handleL2 => tc.l2.nextTaken.map fun r => { tc with l2 := r.2 }.handleL2Eviction r.1

/-- A letter, a digit, `-` or `.`. -/
def plain (c : UInt8) : Bool :=
  (97 ≤ c && c ≤ 122) || (65 ≤ c && c ≤ 90) || (48 ≤ c && c ≤ 57) || c = 45 || c = 46

def underscore : UInt8 := 95

/-- A digit of `%02x`. -/
def hexDigit (n : UInt8) : UInt8 := if n < 10 then 48 + n else 87 + n

def sanitizeByte (c : UInt8) : Str :=
  if plain c then [c]
  else if c = underscore then [underscore, underscore]
  else [underscore, hexDigit (c / 16), hexDigit (c % 16)]

def sanitizeKey (key : Str) : Str := key.flatMap sanitizeByte

/-- The value of a hexadecimal digit. -/
def hexValue (c : UInt8) : Option UInt8 :=
  if 48 ≤ c ∧ c ≤ 57 then some (c - 48)
  else if 97 ≤ c ∧ c ≤ 102 then some (c - 87)
  else if 65 ≤ c ∧ c ≤ 70 then some (c - 55)
  else none

/-- `fmt.Sscanf(hex, "%02x", &b)` skips white space and reads as many digits as there are. Blank and
tab are skipped here; the `\v`, `\f` and `\r` that it skips too are not in the file name of a key. -/
def scanHex (a b : UInt8) : Option UInt8 :=
  match hexValue a, hexValue b with
  | some x, some y => some (16 * x + y)
  | some x, none => some x
  | none, some y => if a = 32 ∨ a = 9 then some y else none
  | none, none => none

def unsanitizeKey : Str → Str
  | [] => []
  | [c] => [c]
  | [c, a] => if c = underscore ∧ a = underscore then [underscore] else c :: unsanitizeKey [a]
  | c :: a :: b :: rest =>
    if c = underscore then
      if a = underscore then underscore :: unsanitizeKey (b :: rest)
      else
        match scanHex a b with
        | some x => x :: unsanitizeKey rest
        | none => c :: unsanitizeKey (a :: b :: rest)
    else c :: unsanitizeKey (a :: b :: rest)

end Solocoder.Tiered
