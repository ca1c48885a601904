import Solocoder.Lib.Runs
import Solocoder.StreamProc.Pipeline

/-!
# When the backpressure is relieved

A record that yields nothing is left behind without a resume check. If it was the last one, the
source stays paused, and also if the last check comes before the reader has set `sourcePaused`.
-/

namespace Solocoder.StreamProc

open Lib List Processor

variable {R : Type} {p : Pipeline R}

/-- The reader has found the backpressure critical, and is about to set `sourcePaused`. -/
def Reader.applying : Reader R → Bool
  | .pausing | .asking | .pause | .setting => true
  | _ => false

def Reader.uncounted : Reader R → Nat
  | .counting => 1
  | _ => 0

def Processor.busy : Processor R → Bool
  | .received _ | .processing _ | .resuming => true
  | _ => false

/-- How many records the processor has taken and not yet counted. -/
def Processor.uncounted : Processor R → Nat
  | .received _ => 1
  | _ => 0

namespace Pipeline

/-- The source waits for a relief that nothing can bring. -/
def Wedged (p : Pipeline R) : Prop :=
  p.sourcePaused ∧ p.recordCh = [] ∧ p.processor = .waiting ∧ ¬ p.backpressureRelieved

/-- With `recordCh` empty, no record is left behind while the source is paused or about to be, and
no resume check is made while it is about to be. -/
def Unhurried (p : Pipeline R) : Event R → Prop
  | .process operators => ∀ rec, p.processor = .processing rec →
      (OperatorChain.process operators [rec]).all (·.1.isEmpty) → p.recordCh = [] →
        ¬ p.sourcePaused ∧ ¬ p.reader.applying
  | .processor => p.processor = .resuming → p.recordCh = [] → ¬ p.reader.applying
  | _ => True

structure Relievable (p : Pipeline R) : Prop where
  count : p.pendingCount = p.recordCh.length + p.processor.uncounted - p.reader.uncounted
  ahead : p.sourcePaused ∨ p.reader.applying → p.recordCh ≠ [] ∨ p.processor.busy

theorem relievable_start (cfg : PipelineConfig) : (start cfg : Pipeline R).Relievable :=
  ⟨rfl, nofun⟩

theorem pos_of_backpressure (h : p.backpressure ≠ .normal) : 0 < p.pendingCount := by
  by_cases hc : p.cfg.atLeastCritical p.pendingCount
  · exact p.cfg.critical_pos _ hc
  · by_cases hw : p.cfg.atLeastWarning p.pendingCount
    · exact p.cfg.warning_pos _ hw
    · simp [backpressure, hc, hw] at h

section

variable (h : p.Relievable)
include h

theorem Relievable.frame {p' : Pipeline R} (hch : p'.recordCh = p.recordCh)
    (hcount : p'.pendingCount = p.pendingCount) (hproc : p'.processor = p.processor)
    (hreader : p'.reader.uncounted = p.reader.uncounted)
    (hpause : p'.sourcePaused ∨ p'.reader.applying → p.sourcePaused ∨ p.reader.applying) :
    p'.Relievable := by
  refine ⟨?_, fun hp => ?_⟩
  · rw [hcount, hch, hproc, hreader, h.count]
  · rw [hch, hproc]
    exact h.ahead (hpause hp)

theorem Relievable.ahead_of_pos (hpos : 0 < p.pendingCount) :
    p.recordCh ≠ [] ∨ p.processor.uncounted = 1 := by
  by_cases hch : p.recordCh = []
  · have hcount := h.count
    rw [hch, length_nil] at hcount
    cases hp : p.processor <;> simp_all [uncounted] <;> omega
  · exact .inl hch

theorem Relievable.sourceReader : p.sourceReader.Relievable := by
  have hcount := h.count
  fun_cases Pipeline.sourceReader p
  case case1 hr _ | case2 hr _ | case3 hr _ | case9 hr _ =>
    exact h.frame rfl rfl rfl (by rw [hr]; rfl) (by rw [hr]; exact id)
  case case5 rec hr _ =>
    rw [hr] at hcount
    refine ⟨?_, fun _ => .inl (by simp)⟩
    simp only [Reader.uncounted, length_append, length_singleton] at hcount ⊢
    omega
  case case7 hr =>
    rw [hr] at hcount
    refine ⟨?_, fun hp => h.ahead (hp.imp_right nofun)⟩
    simp only [Reader.uncounted] at hcount ⊢
    omega
  case case8 hr hcrit =>
    -- The pause begins: the pending records are in front of a resume check.
    have hpos := pos_of_backpressure (p := p) (by rw [hcrit]; nofun)
    refine ⟨by rwa [hr] at hcount, fun _ => (h.ahead_of_pos hpos).imp_right fun huncounted => ?_⟩
    cases hp : p.processor <;> simp_all [uncounted, busy]
  case case10 hr _ | case11 hr _ | case12 hr _ | case13 hr _ | case14 hr | case15 hr =>
    exact h.frame rfl rfl rfl (by rw [hr]; rfl) fun _ => .inr (by rw [hr]; rfl)
  all_goals exact h

theorem Relievable.recordProcessor (hok : p.Unhurried .processor) :
    p.recordProcessor.Relievable := by
  have hcount := h.count
  have hahead := h.ahead
  fun_cases Pipeline.recordProcessor p
  case case1 hp rec rest hch =>
    refine ⟨?_, fun _ => .inr rfl⟩
    simp only [hp, hch, uncounted, length_cons] at hcount ⊢
    omega
  case case3 rec hp =>
    refine ⟨?_, fun _ => .inr rfl⟩
    simp only [hp, uncounted] at hcount ⊢
    omega
  case case4 hp hif =>
    -- Resumed. If a pause is under way, it finds a record.
    rw [hp] at hcount
    refine ⟨hcount, fun happ => .inl fun hch => hok hp hch (happ.resolve_left nofun)⟩
  case case5 hp hif =>
    rw [hp] at hcount
    refine ⟨hcount, fun hpause => .inl fun hch => ?_⟩
    have hpos : 0 < p.pendingCount := pos_of_backpressure fun hn =>
      hif ⟨hpause.resolve_right (hok hp hch), hn⟩
    have := h.ahead_of_pos hpos
    simp_all [uncounted]
  case case6 hp | case7 hp _ | case8 hp _ | case9 hp =>
    rw [hp] at hcount hahead
    exact ⟨hcount, hahead⟩
  all_goals exact h

theorem Relievable.process {operators : List (Operator R)}
    (hok : p.Unhurried (.process operators)) : (p.process operators).Relievable := by
  have hcount := h.count
  fun_cases Pipeline.process p operators
  case case1 rec hp _ _ _ _ =>
    rw [hp] at hcount
    exact ⟨hcount, fun _ => .inr rfl⟩
  case case2 rec hp hnone =>
    rw [hp] at hcount
    refine ⟨hcount, fun hpause => .inl fun hch => ?_⟩
    have hdrop : (OperatorChain.process operators [rec]).all (·.1.isEmpty) := by
      rcases hres : OperatorChain.process operators [rec] with _ | ⟨_ | ⟨r, rs⟩, b⟩
      · rfl
      · rfl
      · exact (hnone r rs b hres).elim
    obtain ⟨hn, hn'⟩ := hok rec hp hdrop hch
    exact hpause.elim hn hn'
  case case3 => exact h

theorem Relievable.step {e : Event R} (hok : p.Unhurried e) : (p.step e).Relievable := by
  cases e with
  | emit rec =>
    simp only [Pipeline.step]
    fun_cases emit p rec
    case case1 _ hr _ | case2 _ hr =>
      exact h.frame rfl rfl rfl (by rw [hr]; rfl) (by rw [hr]; exact id)
    case case3 => exact h
  | close =>
    simp only [Pipeline.step]
    fun_cases close p
    case case1 hr => exact h.frame rfl rfl rfl (by rw [hr]; rfl) (by rw [hr]; exact id)
    case case2 => exact h
  | source state => exact h.frame rfl rfl rfl rfl id
  | reader => exact h.sourceReader
  | processor => exact h.recordProcessor hok
  | process operators => exact h.process hok

end

/-- The pipeline is not wedged as long as no record is left behind, and no resume check made, where
it was the last one. -/
theorem not_wedged (cfg : PipelineConfig) (hrun : Runs step Unhurried (start cfg) p) :
    ¬ p.Wedged := by
  rintro ⟨hpaused, hch, hwait, -⟩
  have h : p.Relievable := hrun.invariant (relievable_start cfg) fun _ _ h hok => h.step hok
  rcases h.ahead (.inl hpaused) with hne | hbusy
  · exact hne hch
  · rw [hwait] at hbusy
    cases hbusy

/-- Every pending record is one too many. -/
def strict : PipelineConfig where
  bufferSize := 1
  atLeastWarning n := 0 < n
  atLeastCritical n := 0 < n
  warning_pos n h := by simpa using h
  critical_pos n h := by simpa using h

def overload : List (Event Unit) := [.reader, .emit (some ()), .reader, .reader, .reader]

def pauseSource : List (Event Unit) := [.reader, .reader, .reader, .reader]

def handle (operators : List (Operator Unit)) : List (Event Unit) :=
  [.processor, .processor, .process operators]

def resumeSource : List (Event Unit) := [.processor, .processor, .processor, .processor]

theorem not_wedged_overload :
    let paused := (overload ++ pauseSource).foldl step (start strict)
    let p := (handle [] ++ resumeSource).foldl step paused
    paused.sourcePaused ∧ paused.source = .paused ∧ ¬ p.Wedged ∧ p.source = .running := by
  have hpause : AllOk step Unhurried (start strict) (overload ++ pauseSource) := by
    simp [AllOk, overload, pauseSource, Unhurried]
  have hresume : AllOk step Unhurried ((overload ++ pauseSource).foldl step (start strict))
      (handle [] ++ resumeSource) := by
    refine ⟨nofun, nofun, ?_, fun _ _ => nofun, nofun, nofun, nofun, trivial⟩
    rintro rec ⟨⟩ hdrop
    cases hdrop
  exact ⟨rfl, rfl, not_wedged strict ((Runs.init.steps hpause).steps hresume), rfl⟩

/-- The record is filtered out after the pause; or it is processed before `sourcePaused` is set. -/
theorem not_not_wedged :
    ∃ p p' : Pipeline Unit, Runs step (fun _ _ => True) (start strict) p ∧ p.Wedged ∧
      Runs step (fun _ _ => True) (start strict) p' ∧ p'.Wedged := by
  refine ⟨(overload ++ pauseSource ++ handle [⟨true, fun _ => some []⟩]).foldl step (start strict),
    (overload ++ handle [] ++ .processor :: pauseSource).foldl step (start strict),
    Runs.init.steps ?_, ⟨rfl, rfl, rfl, by decide⟩, Runs.init.steps ?_, ⟨rfl, rfl, rfl, by decide⟩⟩
  · simp [AllOk, overload, pauseSource, handle]
  · simp [AllOk, overload, pauseSource, handle]

end Solocoder.StreamProc.Pipeline
