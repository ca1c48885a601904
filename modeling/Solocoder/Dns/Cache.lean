import Mathlib.Logic.Function.Basic

/-!
# The cache of `internal/dnsresolver`

The resolver is open and has its cache enabled. Times are numbers of nanoseconds. What a lookup in
the network returns is part of a call.
-/

namespace Solocoder.Dns

structure DNSRecord where
  type : Nat
  ttl : Nat
  data : String

structure CacheEntry where
  records : List DNSRecord
  expiresAt : Int
  ttl : Int

inductive ResolveError
  | invalidDomain
  | lookupFailed

structure Resolver where
  defaultTTL : Int
  cache : String → Option CacheEntry

def second : Int := 1000000000

def newResolverWithConfig (defaultTTL : Int) : Resolver :=
  ⟨if defaultTTL ≤ 0 then 300 * second else defaultTTL, fun _ => none⟩

/-- `Resolve` reads the cache at the time `looked`; the answer of the lookup, if there is one, is
stored at the time `stored`. -/
structure Call where
  domain : String
  qtype : Nat
  looked : Int
  answer : Option (List DNSRecord)
  stored : Int

def extractIPs (records : List DNSRecord) (qtype : Nat) : List String :=
  (records.filter (·.type = qtype)).map (·.data)

namespace Resolver

variable (normalizeDomain : String → String) (r : Resolver) (key : String)

/-- `getFromCache`; the clock is read again before an expired entry is deleted, and does not go
back. -/
def getFromCache (now : Int) : Option (List DNSRecord) × Resolver :=
  match (r.cache key).filter (now ≤ ·.expiresAt) with
  | some entry => (some entry.records, r)
  | none => (none, { r with cache := Function.update r.cache key none })

/-- The time for which `putToCache` keeps the records. -/
def cacheTTL (defaultTTL : Int) (records : List DNSRecord) : Int :=
  let ttl := (records.find? (0 < ·.ttl)).elim 0 (·.ttl * second)
  if ttl ≤ 0 then defaultTTL else ttl

def putToCache (records : List DNSRecord) (now : Int) : Resolver :=
  let ttl := cacheTTL r.defaultTTL records
  { r with cache := Function.update r.cache key (some ⟨records, now + ttl, ttl⟩) }

def cacheKey (domain : String) (qtype : Nat) : String :=
  normalizeDomain domain ++ "|" ++ toString qtype

def resolve (c : Call) : Except ResolveError (List String) × Resolver :=
  if c.domain = "" then (.error .invalidDomain, r)
  else
    let key := cacheKey normalizeDomain c.domain c.qtype
    match r.getFromCache key c.looked, c.answer with
    | (some records, r), _ => (.ok (extractIPs records c.qtype), r)
    | (none, r), none => (.error .lookupFailed, r)
    | (none, r), some records =>
      (.ok (extractIPs records c.qtype),
        if records = [] then r else r.putToCache key records c.stored)

end Resolver

end Solocoder.Dns
