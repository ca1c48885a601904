import Mathlib.Order.Lattice
import Solocoder.Lib.Runs
import Solocoder.SchemaMig.Lock

/-!
# Who removes the row of the migration lock

`Release` deletes the row with the id 1, whoever inserted it. A migrator whose lock expired and was
taken over removes the row of the new holder.
-/

namespace Solocoder.SchemaMig.System

open Lib Function Option

variable {M : Type} [DecidableEq M] {s : System M} {e : Event M} {i : M}

/-- Some migrator, not only the holder, takes the lock for expired by its own timeout. -/
def Expired (s : System M) (lockedAt : Int) : Prop :=
  ∃ k, lockedAt < s.now - (s.locks k).timeout

/-- If the step is the `DELETE` of a `Release`, the row it removes is that of its migrator. -/
def ReleasesOwn (s : System M) (e : Event M) : Prop :=
  ∀ i up, e = .exec i up → (s.locks i).phase = .delete →
    ∀ row ∈ s.table, row ∉ (s.step e).table → row.owner = i

/-- If a migrator takes the lock in the step, the locks that others hold are expired. -/
def Excludes (s : System M) (e : Event M) : Prop :=
  ∀ i j, i ≠ j → (s.locks i).locked = false → ((s.step e).locks i).locked →
    (s.locks j).locked → s.Expired (s.locks j).lockedAt

/-- No `DELETE` of a `Release` comes after the lock has expired. -/
def Timely (s : System M) (e : Event M) : Prop :=
  ∀ i, e = .exec i true → (s.locks i).phase = .delete → ¬ s.Expired (s.locks i).lockedAt

/-- A holder has its row in the table, unless its lock is expired. -/
structure Sound (s : System M) : Prop where
  held : ∀ m, (s.locks m).locked → s.Expired (s.locks m).lockedAt ∨
    ∃ row ∈ s.table, row.owner = m ∧ row.lockedAt = (s.locks m).lockedAt
  cutoff : ∀ m c d, (s.locks m).phase = .cleanup c d → c ≤ s.now - (s.locks m).timeout
  delete : ∀ m, (s.locks m).phase = .delete → (s.locks m).locked

omit [DecidableEq M] in
theorem sound_init (now : Int) (timeout : M → Int) : (init now timeout).Sound :=
  ⟨nofun, nofun, nofun⟩

section

variable (h : s.Sound)
include h

theorem Sound.tick (d : Nat) : (s.step (.tick d)).Sound := by
  refine ⟨fun m hm => ?_, fun m c dl hp => ?_, h.delete⟩
  · refine (h.held m hm).imp_left ?_
    rintro ⟨k, hk⟩
    exact ⟨k, by simp only [step]; omega⟩
  · have hc := h.cutoff m c dl hp
    simp only [step]
    omega

/-- A step of `i` on its lock and the table. The rows of the others stay, or are expired. -/
theorem Sound.put {l : MigrationLock} {t : Option (Row M)}
    (htimeout : l.timeout = (s.locks i).timeout)
    (hheld : l.locked → s.Expired l.lockedAt ∨ ∃ row ∈ t, row.owner = i ∧ row.lockedAt = l.lockedAt)
    (hcutoff : ∀ c d, l.phase = .cleanup c d → c ≤ s.now - l.timeout)
    (hdelete : l.phase = .delete → l.locked)
    (hrow : ∀ row ∈ s.table, row.owner ≠ i → row ∈ t ∨ s.Expired row.lockedAt) :
    System.Sound { s with table := t, locks := update s.locks i l } := by
  have hexp : ∀ a, s.Expired a → Expired { s with table := t, locks := update s.locks i l } a := by
    rintro a ⟨k, hk⟩
    refine ⟨k, ?_⟩
    rcases eq_or_ne k i with rfl | hki
    · simpa [htimeout] using hk
    · simpa [hki] using hk
  refine ⟨fun m hm => ?_, fun m c d hp => ?_, fun m hp => ?_⟩ <;> rcases eq_or_ne m i with rfl | hmi
  · simp only [update_self] at hm ⊢
    exact (hheld hm).imp_left (hexp _)
  · simp only [update_of_ne hmi] at hm ⊢
    rcases h.held m hm with ha | ⟨row, hmem, rfl, hat⟩
    · exact .inl (hexp _ ha)
    · refine (hrow row hmem hmi).symm.imp (fun ha => ?_) (fun ht => ⟨row, ht, rfl, hat⟩)
      exact hat ▸ hexp _ ha
  · simp only [update_self] at hp ⊢
    exact hcutoff c d hp
  · simp only [update_of_ne hmi] at hp ⊢
    exact h.cutoff m c d hp
  · simp only [update_self] at hp ⊢
    exact hdelete hp
  · simp only [update_of_ne hmi] at hp ⊢
    exact h.delete m hp

theorem Sound.setPhase {p : Phase}
    (hcutoff : ∀ c d, p = .cleanup c d → c ≤ s.now - (s.locks i).timeout)
    (hdelete : p = .delete → (s.locks i).locked) : (s.setPhase i p).Sound :=
  h.put rfl (h.held i) hcutoff hdelete fun _ hmem _ => .inl hmem

theorem Sound.start (deadline : Option Int) : (s.start i deadline).Sound := by
  unfold System.start
  split
  · exact h.setPhase nofun nofun
  · exact h.setPhase (by rintro c d ⟨⟩; exact le_rfl) nofun
  · exact h

theorem Sound.next : (s.next i).Sound := by
  unfold System.next
  split
  · exact h.setPhase nofun nofun
  · split
    · exact h.setPhase nofun nofun
    · exact h.setPhase (by rintro c d ⟨⟩; exact le_rfl) nofun
  · exact h

omit [DecidableEq M] in
theorem Sound.owner (hp : (s.locks i).phase = .delete)
    (hexp : ¬ s.Expired (s.locks i).lockedAt) {row : Row M} (hmem : row ∈ s.table) :
    row.owner = i := by
  obtain ⟨row', hmem', howner, -⟩ := (h.held i (h.delete i hp)).resolve_left hexp
  rwa [mem_unique hmem hmem']

theorem Sound.exec {up : Bool} (hok : s.Timely (.exec i up)) : (s.exec i up).Sound := by
  cases hp : (s.locks i).phase with
  | cleanup cut deadline =>
    simp only [System.exec, hp]
    split
    · have hrow : ∀ row ∈ s.table, row ∈ s.table.filter (fun r => decide (cut ≤ r.lockedAt)) ∨
          s.Expired row.lockedAt := by
        intro row hmem
        rcases le_or_gt cut row.lockedAt with hle | hlt
        · exact .inl (mem_filter_iff.mpr ⟨hmem, by simpa using hle⟩)
        · exact .inr ⟨i, hlt.trans_le (h.cutoff i _ _ hp)⟩
      refine h.put rfl (fun hl => ?_) nofun nofun fun row hmem _ => hrow row hmem
      rcases h.held i hl with ha | ⟨row, hmem, howner, hat⟩
      · exact .inl ha
      · exact (hrow row hmem).symm.imp (fun ha => hat ▸ ha) fun ht => ⟨row, ht, howner, hat⟩
    · exact h.setPhase nofun nofun
  | insert lockedAt lockedBy deadline =>
    simp only [System.exec, hp]
    split
    next hins =>
      rw [Bool.and_eq_true, isNone_iff_eq_none] at hins
      exact h.put rfl (fun _ => .inr ⟨_, rfl, rfl, rfl⟩) nofun nofun (by simp [hins.2])
    · split
      · exact h.setPhase nofun nofun
      · exact h.setPhase nofun nofun
  | delete =>
    simp only [System.exec, hp]
    split
    next hup =>
      subst hup
      refine h.put rfl nofun nofun nofun fun row hmem hne => ?_
      exact absurd (h.owner hp (hok i rfl hp) hmem) hne
    · exact h.setPhase nofun nofun
  | done err => simpa only [System.exec, hp] using h
  | stamp deadline => simpa only [System.exec, hp] using h
  | retry deadline => simpa only [System.exec, hp] using h

theorem Sound.step (hok : s.Timely e) : (s.step e).Sound := by
  cases e with
  | tick d => exact h.tick d
  | acquire i => exact h.start none
  | tryAcquire i timeout => exact h.start _
  | release i =>
    simp only [System.step]
    split
    · refine h.setPhase (fun c d => ?_) fun hp => ?_
      · split <;> nofun
      · by_contra hl
        simp [hl] at hp
    · exact h
  | exec i up => exact h.exec hok
  | next i => exact h.next
  | migrate i => exact h

theorem Sound.releasesOwn (hok : s.Timely e) : s.ReleasesOwn e := by
  rintro i up rfl hp row hmem hgone
  cases up with
  | true => exact h.owner hp (hok i rfl hp) hmem
  | false => simp [System.step, System.exec, hp, System.setPhase, hmem] at hgone

end

theorem setPhase_locked (j : M) (p : Phase) :
    ((s.setPhase j p).locks i).locked = (s.locks i).locked := by
  rcases eq_or_ne i j with rfl | hij
  · simp [setPhase]
  · simp [setPhase, hij]

theorem exec_locked {j : M} {up : Bool} (ht : s.table ≠ none) (hi : (s.locks i).locked = false) :
    ((s.exec j up).locks i).locked = false := by
  have hother : i ≠ j → ((s.exec j up).locks i).locked = (s.locks i).locked := by
    intro hij
    fun_cases System.exec s j up <;> simp [setPhase, hij]
  have hself : ((s.exec i up).locks i).locked = false := by
    fun_cases System.exec s i up <;> simp_all [setPhase]
  rcases eq_or_ne i j with rfl | hij
  · exact hself
  · exact (hother hij).trans hi

theorem table_of_locked (hi : (s.locks i).locked = false) (hi' : ((s.step e).locks i).locked) :
    s.table = none := by
  by_contra ht
  cases e with
  | tick d => simp [step, hi] at hi'
  | acquire j =>
    simp only [step, start] at hi'
    split at hi' <;> simp [setPhase_locked, hi] at hi'
  | tryAcquire j timeout =>
    simp only [step, start] at hi'
    split at hi' <;> simp [setPhase_locked, hi] at hi'
  | release j =>
    simp only [step] at hi'
    split at hi' <;> simp [setPhase_locked, hi] at hi'
  | exec j up => simp [step, exec_locked ht hi] at hi'
  | next j =>
    simp only [step, next] at hi'
    split at hi' <;> [skip; split at hi'; skip] <;> simp [setPhase_locked, hi] at hi'
  | migrate j => simp [step, hi] at hi'

theorem Sound.excludes (h : s.Sound) : s.Excludes e := by
  intro i j hij hi hi' hj
  refine (h.held j hj).resolve_right ?_
  rw [table_of_locked hi hi']
  nofun

/-- If all releases are timely, a `Release` removes no row of another migrator, and no migrator
takes the lock while another holds it unexpired. -/
theorem releasesOwn_and_excludes (now : Int) (timeout : M → Int)
    (hrun : Runs step Timely (init now timeout) s) (hok : s.Timely e) :
    s.ReleasesOwn e ∧ s.Excludes e := by
  have hsound : s.Sound := hrun.invariant (sound_init now timeout) fun _ _ h hok => h.step hok
  exact ⟨hsound.releasesOwn hok, hsound.excludes⟩

def acquisition (i : M) : List (Event M) :=
  [.acquire i, .exec i true, .next i, .exec i true]

theorem releasesOwn_and_excludes_release :
    let s := (acquisition (0 : Fin 3) ++ [Event.release 0]).foldl step (init 100 fun _ => 10)
    s.ReleasesOwn (.exec 0 true) ∧ s.Excludes (.exec 0 true) := by
  refine releasesOwn_and_excludes 100 (fun _ => 10)
    (Runs.init.steps ⟨?_, ?_, ?_, ?_, ?_, trivial⟩) ?_
  iterate 5 (rintro i ⟨⟩ ⟨⟩)
  rintro i ⟨⟩ - ⟨k, hk⟩
  exact absurd hk (by decide +revert)

def takeover : List (Event (Fin 3)) :=
  acquisition 0 ++ .tick 11 :: acquisition 1 ++ [.release 0]

/-- Migrator 0 then releases the lock of migrator 1, and migrator 2 is about to take it. -/
def released : List (Event (Fin 3)) :=
  takeover ++ .exec 0 true :: [.acquire 2, .exec 2 true, .next 2]

theorem not_releasesOwn_and_excludes :
    ∃ s s' : System (Fin 3), Runs step (fun _ _ => True) (init 100 fun _ => 10) s ∧
      ¬ s.ReleasesOwn (.exec 0 true) ∧
      Runs step (fun _ _ => True) (init 100 fun _ => 10) s' ∧ ¬ s'.Excludes (.exec 2 true) := by
  refine ⟨takeover.foldl step (init 100 fun _ => 10), released.foldl step (init 100 fun _ => 10),
    Runs.init.steps (by simp [AllOk, takeover, acquisition]), fun h => ?_,
    Runs.init.steps (by simp [AllOk, released, takeover, acquisition]), fun h => ?_⟩
  · exact absurd (h 0 true rfl rfl ⟨111, (111, 111), 1⟩ rfl nofun) (by decide)
  · obtain ⟨k, hk⟩ := h 2 1 (by decide) rfl rfl rfl
    exact absurd hk (by decide +revert)

end Solocoder.SchemaMig.System
