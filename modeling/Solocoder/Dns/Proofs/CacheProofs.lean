import Solocoder.Dns.Cache
import Solocoder.Lib.Numbered
import Solocoder.Lib.Runs

/-!
# The age of cached records

The runs keep, beside the resolver, when the last answer for a key was stored. The cache is compared
with that time, not with what it has written down itself.
-/

namespace Solocoder.Dns

open Lib Function

namespace Resolver

variable (normalizeDomain : String → String)

/-- A call leaves an entry in the cache that was there before, unless it asks for it and finds that it
has expired, or it leaves its own answer. -/
theorem resolve_spec (r : Resolver) (c : Call) :
    (r.resolve normalizeDomain c).2.defaultTTL = r.defaultTTL ∧ ∀ key entry,
      (r.resolve normalizeDomain c).2.cache key = some entry →
      r.cache key = some entry ∧ (key = cacheKey normalizeDomain c.domain c.qtype →
        c.domain = "" ∨ (r.getFromCache key c.looked).1 ≠ none) ∨
      key = cacheKey normalizeDomain c.domain c.qtype ∧ c.domain ≠ "" ∧
        (r.getFromCache key c.looked).1 = none ∧ c.answer = some entry.records ∧
        entry.expiresAt = c.stored + cacheTTL r.defaultTTL entry.records := by
  by_cases hdomain : c.domain = ""
  · simp +contextual [resolve, hdomain]
  · cases hfound : (r.cache (cacheKey normalizeDomain c.domain c.qtype)).filter
      (c.looked ≤ ·.expiresAt) with
    | some found =>
      refine ⟨by simp [resolve, hdomain, getFromCache, hfound], fun key entry h => .inl ⟨?_, ?_⟩⟩
      · simpa [resolve, hdomain, getFromCache, hfound] using h
      · rintro rfl
        simp [getFromCache, hfound]
    | none =>
      have hdeleted : ∀ key entry,
          update r.cache (cacheKey normalizeDomain c.domain c.qtype) none key = some entry →
            r.cache key = some entry ∧ key ≠ cacheKey normalizeDomain c.domain c.qtype := by
        grind
      rcases hanswer : c.answer with _ | _ | ⟨rr, records⟩
      · simp +contextual [resolve, hdomain, getFromCache, hfound, hanswer, hdeleted]
      · simp +contextual [resolve, hdomain, getFromCache, hfound, hanswer, hdeleted]
      · simp only [resolve, hdomain, getFromCache, hfound, hanswer, putToCache, update_idem, if_false,
          reduceCtorEq]
        refine ⟨trivial, fun key entry h => ?_⟩
        rcases eq_or_ne key (cacheKey normalizeDomain c.domain c.qtype) with rfl | hne
        · obtain rfl : _ = entry := by simpa using h
          exact .inr ⟨rfl, hdomain, by rw [hfound], rfl, rfl⟩
        · exact .inl ⟨by simpa [hne] using h, fun hkey => absurd hkey hne⟩

/-- The resolver, the time, and when which records were stored. -/
structure State where
  resolver : Resolver
  now : Int
  stored : String → Option (Int × List DNSRecord)

/-- A call with a domain asks the network when it finds nothing in the cache. -/
def step (s : State) (c : Call) : State where
  resolver := (s.resolver.resolve normalizeDomain c).2
  now := c.stored
  stored :=
    let key := cacheKey normalizeDomain c.domain c.qtype
    if c.domain ≠ "" ∧ (s.resolver.getFromCache key c.looked).1 = none then
      update s.stored key (c.answer.elim (s.stored key) fun records => some (c.stored, records))
    else s.stored

/-- The call finds no address in the cache later after it was stored than its record allows. -/
def Fresh (s : State) (c : Call) : Prop :=
  let key := cacheKey normalizeDomain c.domain c.qtype
  ∀ records, (s.resolver.getFromCache key c.looked).1 = some records →
    ∃ time, s.stored key = some (time, records) ∧ ∀ rr ∈ records, rr.type = c.qtype →
      c.looked ≤ time + rr.ttl * second

/-- A call after all others, and what its lookup may return. -/
structure Possible (answers : Nat → Set (List DNSRecord)) (s : State) (c : Call) : Prop where
  looked : s.now ≤ c.looked
  stored : c.looked ≤ c.stored
  answer : ∀ records ∈ c.answer, records ∈ answers c.qtype

/-- Every entry is the last answer for its key, and expires when the time that it is kept is over. -/
structure Kept (answers : Nat → Set (List DNSRecord)) (defaultTTL : Int) (s : State) : Prop where
  default : s.resolver.defaultTTL = defaultTTL
  entries : ∀ key entry, s.resolver.cache key = some entry → ∃ time,
    s.stored key = some (time, entry.records) ∧
    entry.expiresAt = time + cacheTTL defaultTTL entry.records ∧
    ∃ domain qtype, key = cacheKey normalizeDomain domain qtype ∧ entry.records ∈ answers qtype

theorem Kept.step {answers : Nat → Set (List DNSRecord)} {defaultTTL : Int} {s : State} {c : Call}
    (h : Kept normalizeDomain answers defaultTTL s) (hc : Possible answers s c) :
    Kept normalizeDomain answers defaultTTL (step normalizeDomain s c) := by
  refine ⟨(resolve_spec _ _ c).1.trans h.default, fun key entry hentry => ?_⟩
  simp only [Resolver.step]
  rcases (resolve_spec _ _ c).2 _ _ hentry with ⟨hold, hasked⟩ | ⟨rfl, hdomain, hnone, hanswer, htime⟩
  · obtain ⟨time, hstored, hrest⟩ := h.entries key entry hold
    refine ⟨time, ?_, hrest⟩
    split_ifs with hcond
    · rw [update_of_ne, hstored]
      rintro rfl
      exact (hasked rfl).elim hcond.1 fun hfound => hfound hcond.2
    · exact hstored
  · rw [h.default] at htime
    exact ⟨c.stored, by simp [hdomain, hnone, hanswer], htime, _, _, rfl, hc.answer _ hanswer⟩

theorem cacheTTL_le_iff {defaultTTL : Int} (hdefault : 0 < defaultTTL) {records : List DNSRecord}
    {rr : DNSRecord} (hrr : rr ∈ records) : cacheTTL defaultTTL records ≤ rr.ttl * second ↔
      ∃ first ∈ records.find? (0 < ·.ttl), first.ttl ≤ rr.ttl := by
  cases hfind : records.find? (0 < ·.ttl) with
  | none =>
    have hzero : rr.ttl = 0 := by simpa using List.find?_eq_none.1 hfind rr hrr
    simp [cacheTTL, hfind, hzero, hdefault]
  | some first =>
    have hpos : 0 < first.ttl := by simpa using List.find?_some hfind
    have hkept : cacheTTL defaultTTL records = first.ttl * second := by
      rw [cacheTTL, hfind]
      exact if_neg (by simp only [Option.elim_some, second]; omega)
    simp only [hkept, second, Option.mem_some_iff, exists_eq_left']
    omega

end Resolver

end Solocoder.Dns
