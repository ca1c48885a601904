import Solocoder.Lib.Folds
import Solocoder.Lib.Runs
import Solocoder.DataDedup.Dedup

/-!
# What a chunked deduplication remembers

The index is a set. A deletion takes chunks that other data has too, and data that repeats a chunk
finds it.
-/

namespace Solocoder.DataDedup

open Lib List ChunkedDedup

variable {Fp : Type} [DecidableEq Fp]

/-- The calls that change the engine. -/
inductive Op
  | add (data : Data)
  | checkAndAdd (data : Data)
  | delete (data : Data)

/-- The engine with the data that was added and not deleted since. -/
structure System (Fp : Type) where
  engine : ChunkedDedup Fp
  live : Set Data

namespace System

/-- The new engine. -/
def start (chunker : Chunker Fp) : System Fp := ⟨⟨∅, chunker⟩, ∅⟩

variable (s : System Fp)

/-- A call; one that fails changes nothing. -/
def step : Op → System Fp
  | .add data => (s.engine.add data).toOption.elim s fun engine => ⟨engine, insert data s.live⟩
  | .checkAndAdd data => (s.engine.checkAndAdd data).toOption.elim s fun out =>
      ⟨out.2, insert data s.live⟩
  | .delete data => (s.engine.delete data).toOption.elim s fun engine => ⟨engine, s.live \ {data}⟩

/-- What was added and not deleted is found. -/
def Remembers : Prop := ∀ data ∈ s.live, s.engine.contains data = .ok true

/-- `CheckAndAdd` says what `Check` would say. -/
def Agrees : Op → Prop
  | .checkAndAdd data => (s.engine.checkAndAdd data).map (·.1.isDuplicate) =
      (s.engine.check data).map (·.isDuplicate)
  | _ => True

/-- Data that is checked and added repeats no chunk, unless one is known; every other datum has a
known chunk that the deleted one has not. -/
def Separate : Op → Prop
  | .add _ => True
  | .checkAndAdd data => data ≠ [] → (s.engine.fingerprints data).Nodup ∨
      ∃ fp ∈ s.engine.fingerprints data, fp ∈ s.engine.index
  | .delete data => data ≠ [] → ∀ other ∈ s.live, other ≠ data →
      ∃ fp ∈ s.engine.fingerprints other, fp ∈ s.engine.index ∧ fp ∉ s.engine.fingerprints data

end System

section Folds

variable {index : Finset Fp} {chunks : List (Chunk Fp)} {result : DedupResult Fp}

theorem isDuplicate_foldl : (chunks.foldl (fun result chunk =>
      if chunk.fingerprint ∈ index then result.found chunk else result) result).isDuplicate ↔
    result.isDuplicate ∨ ∃ chunk ∈ chunks, chunk.fingerprint ∈ index := by
  induction chunks generalizing result with
  | nil => simp
  | cons a chunks ih =>
    rw [foldl_cons, ih]
    split <;> simp_all [DedupResult.found]

theorem fst_foldl_lookOrInsert : (chunks.foldl lookOrInsert (index, result)).1 =
    (chunks.map (·.fingerprint)).foldl (fun index fp => insert fp index) index := by
  induction chunks generalizing index result with
  | nil => rfl
  | cons a chunks ih =>
    rw [foldl_cons, map_cons, foldl_cons, lookOrInsert]
    split
    next hmem => rw [ih, Finset.insert_eq_of_mem hmem]
    next => rw [ih]

theorem isDuplicate_foldl_lookOrInsert :
    (chunks.foldl lookOrInsert (index, result)).2.isDuplicate ↔ result.isDuplicate ∨
      ¬ (chunks.map (·.fingerprint)).Nodup ∨ ∃ chunk ∈ chunks, chunk.fingerprint ∈ index := by
  induction chunks generalizing index result with
  | nil => simp
  | cons a chunks ih =>
    rw [foldl_cons, lookOrInsert, map_cons, nodup_cons]
    split
    next hmem =>
      rw [ih]
      simp [hmem, DedupResult.found]
    next hmem =>
      have hinsert : (∃ chunk ∈ chunks, chunk.fingerprint ∈ insert a.fingerprint index) ↔
          a.fingerprint ∈ chunks.map (·.fingerprint) ∨
            ∃ chunk ∈ chunks, chunk.fingerprint ∈ index := by
        simp only [Finset.mem_insert, and_or_left, exists_or, mem_map]
      rw [ih, hinsert, exists_mem_cons_iff]
      tauto

end Folds

namespace System

variable {s : System Fp} {chunker : Chunker Fp} {data : Data}

theorem contains_iff (hne : data ≠ []) : s.engine.contains data = .ok true ↔
    ∃ fp ∈ s.engine.fingerprints data, fp ∈ s.engine.index := by
  simp only [ChunkedDedup.contains, check, if_neg hne, Except.map, Except.ok.injEq]
  rw [isDuplicate_foldl]
  simp [fingerprints]

theorem agrees_iff : s.Agrees (.checkAndAdd data) ↔ s.Separate (.checkAndAdd data) := by
  by_cases hne : data = []
  · simp [Agrees, Separate, checkAndAdd, check, hne]
    rfl
  · simp only [Agrees, Separate, checkAndAdd, check, if_neg hne, Except.map, Except.ok.injEq]
    rw [Bool.eq_iff_iff, isDuplicate_foldl, isDuplicate_foldl_lookOrInsert]
    simp only [Bool.false_eq_true, false_or, fingerprints, mem_map,
      exists_exists_and_eq_and]
    tauto

theorem remembers_iff : s.Remembers ↔ ∀ data ∈ s.live, data ≠ [] ∧
    ∃ fp ∈ s.engine.fingerprints data, fp ∈ s.engine.index := by
  refine forall₂_congr fun data _ => ?_
  by_cases hne : data = []
  · simp [ChunkedDedup.contains, hne]
  · rw [contains_iff hne, and_iff_right hne]

theorem Remembers.insert {index : Finset Fp} (h : s.Remembers) (hne : data ≠ [])
    (hindex : ∀ fp, fp ∈ index ↔ fp ∈ s.engine.index ∨ fp ∈ s.engine.fingerprints data) :
    Remembers ⟨{ s.engine with index }, insert data s.live⟩ := by
  rw [remembers_iff] at h ⊢
  rintro other (rfl | hother)
  · obtain ⟨chunk, hchunk⟩ := exists_mem_of_ne_nil _ (s.engine.chunker.chunk_ne_nil _ hne)
    exact ⟨hne, _, mem_map_of_mem hchunk, (hindex _).mpr (.inr (mem_map_of_mem hchunk))⟩
  · obtain ⟨hne', fp, hfp, hmem⟩ := h other hother
    exact ⟨hne', fp, hfp, (hindex fp).mpr (.inl hmem)⟩

theorem step_iff (h : s.Remembers) (op : Op) :
    (s.step op).Remembers ∧ s.Agrees op ↔ s.Separate op := by
  cases op with
  | add data =>
    refine iff_of_true ⟨?_, trivial⟩ trivial
    by_cases hne : data = []
    · rw [step, add, if_pos hne]
      exact h
    · simp only [step, add, if_neg hne]
      exact h.insert hne fun fp => mem_foldl_insert
  | checkAndAdd data =>
    rw [agrees_iff]
    refine and_iff_right ?_
    by_cases hne : data = []
    · rw [step, checkAndAdd, if_pos hne]
      exact h
    · simp only [step, checkAndAdd, if_neg hne]
      refine h.insert hne fun fp => ?_
      rw [fst_foldl_lookOrInsert, mem_foldl_insert, fingerprints]
  | delete data =>
    refine (and_iff_left trivial).trans ?_
    by_cases hne : data = []
    · refine iff_of_true ?_ fun h' => absurd hne h'
      rw [step, delete, if_pos hne]
      exact h
    · rw [remembers_iff] at h ⊢
      simp only [step, delete, if_neg hne, Separate]
      constructor
      · intro hall _ other hother hdiff
        obtain ⟨-, fp, hfp, hmem⟩ := hall other ⟨hother, hdiff⟩
        exact ⟨fp, hfp, mem_foldl_erase.mp hmem⟩
      · rintro hsep other ⟨hother, hdiff⟩
        obtain ⟨fp, hfp, hmem⟩ := hsep hne other hother hdiff
        exact ⟨(h other hother).1, fp, hfp, mem_foldl_erase.mpr hmem⟩

/-- The engine remembers what was added as long as every call is separate, and no longer. -/
theorem remembers_and_agrees (h : Runs step Separate (start chunker) s) :
    s.Remembers ∧ ∀ op, (s.step op).Remembers ∧ s.Agrees op ↔ s.Separate op := by
  have hs : s.Remembers := h.invariant nofun fun s op hs hok => ((step_iff hs op).mpr hok).1
  exact ⟨hs, step_iff hs⟩

/-- Chunks of one byte, which are their own fingerprints. -/
def bytewise : Chunker Data := .newFixedSizeChunker id 1 Nat.one_pos

theorem remembers_and_agrees_bytes :
    (((start bytewise).step (.add [1, 2])).step (.delete [2])).Remembers := by
  have hadd : Runs step Separate (start bytewise) ((start bytewise).step (.add [1, 2])) :=
    .step .init trivial
  refine (remembers_and_agrees (hadd.step ?_)).1
  rintro - other (rfl | ⟨⟨⟩⟩) -
  exact ⟨[1], by decide +kernel, by decide +kernel, by decide +kernel⟩

/-- A deletion of other data with the same chunk, and data that repeats one. -/
theorem not_remembers_and_agrees :
    ¬ ((((start bytewise).step (.add [1])).step (.add [1, 2])).step (.delete [1, 2])).Remembers ∧
      ¬ (start bytewise).Agrees (.checkAndAdd [1, 1]) := by
  refine ⟨fun h => ?_, fun h => absurd (Except.ok.inj h) (by decide +kernel)⟩
  exact absurd (Except.ok.inj (h [1] ⟨.inr (.inl rfl), by decide⟩)) (by decide +kernel)

end System

end Solocoder.DataDedup
