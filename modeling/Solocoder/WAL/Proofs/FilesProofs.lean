import Solocoder.WAL.Proofs.ScanProofs

/-!
# The log and its files

A `Ledger` is the log in terms of the entries in its files; the directory and the fields of the log
are functions of it. `New` finds the same ledger again as long as the scan of each file finds what
it holds.
-/

namespace Solocoder.Wal

open List Option

/-! ## Files and what they hold -/

/-- A segment file: its number and its records, with the bytes that a torn write may have left
between them. -/
structure Filed where
  id : Nat
  before : List Entry
  torn : Bytes
  after : List Entry

namespace Filed

def held (f : Filed) : List Entry := f.before ++ f.after

def content (f : Filed) : Bytes := encodeAll f.before ++ (f.torn ++ encodeAll f.after)

def file (f : Filed) : Nat × Bytes := (f.id, f.content)

def segment (h : Handle) (f : Filed) : Segment :=
  ⟨f.id, h, f.content.length, firstOffset f.held, lastOffset f.held⟩

def empty (id : Nat) : Filed := ⟨id, [], [], []⟩

def add (f : Filed) (e : Entry) : Filed := { f with after := f.after ++ [e] }

@[simp] theorem held_empty (id : Nat) : (empty id).held = [] := rfl

@[simp] theorem held_add (f : Filed) (e : Entry) : (f.add e).held = f.held ++ [e] := by
  simp [held, add]

@[simp] theorem content_add (f : Filed) (e : Entry) :
    (f.add e).content = f.content ++ encodeEntry e := by
  simp [content, add, encodeAll_concat]

def Readable (f : Filed) : Prop := outcome (scan f.content) = .ok f.held

end Filed

def entries (fs : List Filed) : List Entry := fs.flatMap Filed.held

@[simp] theorem entries_concat (fs : List Filed) (f : Filed) : entries (fs ++ [f]) = entries fs ++ f.held := by
  simp [entries]

/-- The log in terms of what its files hold. -/
structure Ledger where
  older : List Filed
  active : Filed
  handle : Handle
  next : Int
  closed : Bool

namespace Ledger

def files (l : Ledger) : List Filed := l.older ++ [l.active]

def log (l : Ledger) : List Entry := entries l.files

def disk (l : Ledger) : Disk := l.files.map Filed.file

def wal (config : Config) (l : Ledger) : WAL :=
  ⟨config, l.older.map (Filed.segment .nil), l.active.segment l.handle, l.next, l.closed⟩

/-- The numbers of the files ascend and no offset is negative. -/
structure Ok (l : Ledger) : Prop where
  sorted : l.files.Pairwise fun f g => f.id < g.id
  nonneg : ∀ e ∈ l.log, 0 ≤ e.offset

def rotate (l : Ledger) : Ledger :=
  { l with older := l.files, active := .empty (l.active.id + 1), handle := .opened }

def write (l : Ledger) (e : Entry) : Ledger :=
  { l with active := l.active.add e, next := int64 (e.offset + 1) }

@[simp] theorem log_rotate (l : Ledger) : l.rotate.log = l.log := by
  show entries (l.files ++ [.empty (l.active.id + 1)]) = l.log
  rw [entries_concat, Filed.held_empty, append_nil, log]

@[simp] theorem log_write (l : Ledger) (e : Entry) : (l.write e).log = l.log ++ [e] := by
  simp [log, write, files]

theorem log_eq (l : Ledger) : l.log = entries l.older ++ l.active.held := by
  simp [log, files]

end Ledger

open Filed Ledger

variable {l : Ledger} {f : Filed}

namespace Ledger.Ok

variable (h : l.Ok)
include h

theorem id_lt : ∀ f ∈ l.older, f.id < l.active.id :=
  fun f hf => (pairwise_append.1 h.sorted).2.2 f hf _ (mem_singleton_self _)

theorem rotate : l.rotate.Ok where
  sorted := by
    refine pairwise_append.2 ⟨h.sorted, pairwise_singleton .., fun f hf g hg => ?_⟩
    rw [mem_singleton.1 hg]
    show f.id < l.active.id + 1
    rcases mem_append.1 hf with hf | hf
    · have := h.id_lt f hf
      omega
    · rw [mem_singleton.1 hf]
      omega
  nonneg := by
    rw [log_rotate]
    exact h.nonneg

theorem replace {l' : Ledger} (ho : l'.older = l.older)
    (hid : l'.active.id = l.active.id) (hpos : ∀ e ∈ l'.active.held, 0 ≤ e.offset) : l'.Ok where
  sorted := by
    have hs := pairwise_append.1 h.sorted
    rw [files, ho]
    refine pairwise_append.2 ⟨hs.1, pairwise_singleton .., fun f hf g hg => ?_⟩
    rw [mem_singleton.1 hg, hid]
    exact h.id_lt f hf
  nonneg := by
    intro e he
    rw [log_eq, ho] at he
    rcases mem_append.1 he with he | he
    · refine h.nonneg e ?_
      rw [log_eq]
      exact mem_append_left _ he
    · exact hpos e he

theorem active_nonneg : ∀ e ∈ l.active.held, 0 ≤ e.offset := by
  intro e he
  refine h.nonneg e ?_
  rw [log_eq]
  exact mem_append_right _ he

theorem write {e : Entry} (he : 0 ≤ e.offset) : (l.write e).Ok := by
  refine h.replace rfl rfl ?_
  rw [Ledger.write, held_add]
  exact forall_mem_append.2 ⟨h.active_nonneg, forall_mem_singleton.2 he⟩

theorem read (hf : f ∈ l.files) : l.disk.read f.id = some f.content := by
  have hs := h.sorted
  rw [disk, Disk.read]
  generalize l.files = fs at hf hs
  induction fs with
  | nil => cases hf
  | cons g fs ih =>
    rw [map_cons, file, lookup_cons]
    rcases mem_cons.1 hf with rfl | hf
    · simp
    · have hlt := rel_of_pairwise_cons hs hf
      have hne : (f.id == g.id) = false := by
        rw [beq_eq_false_iff_ne]
        omega
      rw [hne]
      exact ih hf hs.of_cons

theorem disk_append {bs : Bytes} (l' : Ledger) (ho : l'.older = l.older)
    (hid : l'.active.id = l.active.id) (hc : l'.active.content = l.active.content ++ bs) :
    l.disk.append l.active.id bs = l'.disk := by
  rw [disk, disk, Disk.append, List.map_map, files, files, ho,
    map_append, map_append]
  congr 1
  · exact map_congr_left fun f hf => if_neg (h.id_lt f hf).ne
  · show [if l.active.id = l.active.id then (l.active.id, l.active.content ++ bs) else l.active.file] =
      [(l'.active.id, l'.active.content)]
    rw [if_pos rfl, hid, hc]

theorem id_notMem : l.active.id + 1 ∉ l.disk.map Prod.fst := by
  rw [disk, List.map_map]
  intro hmem
  obtain ⟨f, hf, heq⟩ := mem_map.1 hmem
  have heq : f.id = l.active.id + 1 := heq
  rcases mem_append.1 hf with hf | hf
  · have := h.id_lt f hf
    omega
  · rw [mem_singleton.1 hf] at heq
    omega

theorem disk_create : l.disk.create (l.active.id + 1) = l.rotate.disk := by
  rw [Disk.create, if_neg h.id_notMem]
  show l.files.map file ++ [(l.active.id + 1, [])] =
    (l.files ++ [empty (l.active.id + 1)]).map file
  rw [map_append]
  rfl

end Ledger.Ok

/-! ## `Append` -/

/-- The fault leaves no byte in the file. -/
def Traceless (fault : Option Fault) : Prop :=
  fault ≠ some .fsync ∧ ∀ n, failedWrite fault = some n → n = 0

section Append

variable (config : Config) {l : Ledger} {fault : Option Fault}

theorem rotateSegment_cases (h : l.Ok) (fault : Option Fault) :
    (∃ hd err, rotateSegment (l.wal config) l.disk fault =
      (({ l with handle := hd } : Ledger).wal config, l.disk, some err)) ∨
    rotateSegment (l.wal config) l.disk fault = (l.rotate.wal config, l.rotate.disk, none) := by
  rw [rotateSegment]
  split_ifs with h1 h2 h3
  · exact .inl ⟨l.handle, _, rfl⟩
  · exact .inl ⟨.closed, .closeActive, rfl⟩
  · exact .inl ⟨.nil, .create, rfl⟩
  · rw [← h.disk_create]
    simp [wal, Ledger.rotate, files, Filed.segment, newSegment, empty,
      content, held, encodeAll, firstOffset, lastOffset]

theorem rotateSegment_ledger (h : l.Ok) (ho : l.handle = .opened) (hs : fault ≠ some .rotateSync)
    (hc : fault ≠ some .rotateClose) (hn : fault ≠ some .createSegment) :
    rotateSegment (l.wal config) l.disk fault = (l.rotate.wal config, l.rotate.disk, none) := by
  rcases rotateSegment_cases config h fault with ⟨hd, err, heq⟩ | heq
  · rw [rotateSegment, if_neg (by simp [wal, Filed.segment, ho, hs]), if_neg hc,
      if_neg hn] at heq
    cases congrArg (fun r => r.2.2) heq
  · exact heq

variable {e : Entry}

theorem writeEntry_ledger (h : l.Ok) (ho : l.handle = .opened) (hw : failedWrite fault = none)
    (hs : fault ≠ some .fsync) :
    writeEntry (l.wal config) l.disk fault e.offset (encodeEntry e) =
      ((l.write e).wal config, (l.write e).disk, .ok e.offset) := by
  rw [← h.disk_append (l.write e) rfl rfl (content_add l.active e), writeEntry,
    if_neg (by simp [wal, Filed.segment, ho]), hw]
  rw [if_neg (by simp [hs])]
  have hid : (l.active.add e).id = l.active.id := rfl
  simp only [wal, write, Filed.segment, lastOffset_concat, held_add,
    content_add, length_append, firstOffset_concat h.active_nonneg, hid]
  all_goals rfl

theorem writeEntry_cases (h : l.Ok) (hf : Traceless fault) :
    (∃ err, writeEntry (l.wal config) l.disk fault e.offset (encodeEntry e) =
      (l.wal config, l.disk, .error err)) ∨
    writeEntry (l.wal config) l.disk fault e.offset (encodeEntry e) =
      ((l.write e).wal config, (l.write e).disk, .ok e.offset) := by
  by_cases ho : l.handle = .opened
  · cases hw : failedWrite fault with
    | none => exact .inr (writeEntry_ledger config h ho hw hf.1)
    | some n =>
      obtain rfl := hf.2 n hw
      left
      rw [writeEntry, if_neg (by simp [wal, Filed.segment, ho]), hw]
      refine ⟨.writeEntry, ?_⟩
      show (_, l.disk.append l.active.id [], _) = _
      rw [h.disk_append l rfl rfl (append_nil _).symm]
  · left
    rw [writeEntry, if_pos (by simpa [wal, Filed.segment] using ho)]
    exact ⟨_, rfl⟩

/-- What an `Append` that leaves no part of an entry may do: it fails with at most a new last file,
or adds the entry to the last file or to a new one. -/
inductive Appended (e : Entry) (l : Ledger) : Ledger → Except Err Int → Prop where
  | failed (hd : Handle) (err : Err) : Appended e l { l with handle := hd } (.error err)
  | failedRotated (err : Err) : Appended e l l.rotate (.error err)
  | wrote : Appended e l (l.write e) (.ok e.offset)
  | wroteRotated : Appended e l (l.rotate.write e) (.ok e.offset)

theorem append_cases (h : l.Ok) (hf : Traceless fault) (opType : OpType) (data : Bytes) :
    ∃ l' r, append (l.wal config) l.disk opType data fault = (l'.wal config, l'.disk, r) ∧
      Appended ⟨l.next, opType, data⟩ l l' r := by
  simp only [append]
  split_ifs with hclosed hempty hfull
  · exact ⟨_, _, rfl, .failed l.handle _⟩
  · exact ⟨_, _, rfl, .failed l.handle _⟩
  · rcases rotateSegment_cases config h fault with ⟨hd, err, heq⟩ | heq
    · rw [heq]
      exact ⟨_, _, rfl, .failed hd err⟩
    · rw [heq]
      rcases writeEntry_cases config (e := ⟨l.next, opType, data⟩) h.rotate hf with
        ⟨err, heq⟩ | heq
      · exact ⟨_, _, heq, .failedRotated err⟩
      · exact ⟨_, _, heq, .wroteRotated⟩
  · rcases writeEntry_cases config (e := ⟨l.next, opType, data⟩) h hf with
      ⟨err, heq⟩ | heq
    · exact ⟨_, _, heq, .failed l.handle err⟩
    · exact ⟨_, _, heq, .wrote⟩

def Ledger.full (config : Config) (l : Ledger) (e : Entry) : Prop :=
  (l.wal config).full (encodeEntry e) = true

instance (config : Config) (l : Ledger) (e : Entry) : Decidable (l.full config e) :=
  inferInstanceAs (Decidable (_ = true))

def Ledger.room (config : Config) (l : Ledger) (e : Entry) : Ledger :=
  if l.full config e then l.rotate else l

theorem Ledger.Ok.room (h : l.Ok) (c : Config) (e : Entry) : (l.room c e).Ok := by
  rw [Ledger.room]
  split_ifs
  · exact h.rotate
  · exact h

theorem opened_room (c : Config) (h : l.handle = .opened) (e : Entry) :
    (l.room c e).handle = .opened := by
  rw [room]
  split_ifs
  · rfl
  · exact h

variable (h : l.Ok) (ho : l.handle = .opened) (hc : l.closed = false) (he : e.offset = l.next)
  (hacc : e.type = opCheckpoint ∨ e.data ≠ [])
include h ho hc he hacc

theorem append_room (hs : fault ≠ some .rotateSync) (hcl : fault ≠ some .rotateClose)
    (hn : fault ≠ some .createSegment) :
    append (l.wal config) l.disk e.type e.data fault =
      writeEntry ((l.room config e).wal config) (l.room config e).disk fault e.offset
        (encodeEntry e) := by
  obtain ⟨offset, opType, data⟩ := e
  obtain rfl : offset = l.next := he
  have hempty : ¬ (opType ≠ opCheckpoint ∧ data.length = 0) := by
    rw [length_eq_zero_iff]
    tauto
  rw [append, if_neg (by simp [wal, hc]), if_neg hempty, room]
  show (if l.full config ⟨l.next, opType, data⟩ then _ else _) = _
  split_ifs with hfull
  · rw [rotateSegment_ledger config h ho hs hcl hn]
    rfl
  · rfl

theorem append_ledger : append (l.wal config) l.disk e.type e.data none =
    (((l.room config e).write e).wal config, ((l.room config e).write e).disk, .ok e.offset) := by
  rw [append_room config h ho hc he hacc (by simp) (by simp) (by simp)]
  exact writeEntry_ledger config (h.room config e) (opened_room config ho e) rfl (by simp)

end Append

/-! ## `New` -/

theorem Filed.Readable.openSegment (h : f.Readable) (hpos : ∀ e ∈ f.held, 0 ≤ e.offset) :
    openSegment f.id f.content = .ok (f.segment .nil) := by
  rw [Wal.openSegment]
  split_ifs with hnil
  · have hheld : f.held = [] := by
      rw [Readable, length_eq_zero_iff.1 hnil] at h
      exact (Except.ok.inj h).symm
    rw [Filed.segment, hnil, hheld]
    rfl
  · have hoff : f.held.foldl noteOffset (-1, -1) = _ := foldl_noteOffset [] hpos
    rw [Readable] at h
    rw [scanSegmentOffsets, offsetsLoop_eq, h, Except.map, hoff]
    rfl

theorem openSegments_readable {d : Disk} {fs : List Filed}
    (hd : ∀ f ∈ fs, d.read f.id = some f.content) (hr : ∀ f ∈ fs, f.Readable)
    (hpos : ∀ e ∈ entries fs, 0 ≤ e.offset) :
    openSegments d (fs.map Filed.id) = .ok (fs.map (Filed.segment .nil)) := by
  induction fs with
  | nil => rfl
  | cons f fs ih =>
    rw [forall_mem_cons] at hd hr
    have hf := hr.1.openSegment fun e he => hpos e (mem_append_left _ he)
    have hfs := ih hd.2 hr.2 fun e he => hpos e (mem_append_right _ he)
    rw [map_cons, openSegments, hd.1, getD_some, hf, hfs]
    rfl

theorem openSegments_unreadable {d : Disk} {fs : List Filed} {err : ReadErr} (hf : f ∈ fs)
    (hd : d.read f.id = some f.content) (herr : outcome (scan f.content) = .error err) :
    ∃ err, openSegments d (fs.map Filed.id) = .error err := by
  induction fs with
  | nil => cases hf
  | cons g fs ih =>
    rw [map_cons, openSegments]
    rcases mem_cons.1 hf with rfl | hf
    · have hopen : openSegment f.id f.content = .error err := by
        rw [openSegment, if_neg, scanSegmentOffsets, offsetsLoop_eq, herr]
        · rfl
        intro hnil
        rw [length_eq_zero_iff.1 hnil] at herr
        cases herr
      rw [hd, getD_some, hopen]
      exact ⟨err, rfl⟩
    · obtain ⟨err', heq⟩ := ih hf
      rw [heq]
      cases openSegment g.id ((d.read g.id).getD []) with
      | error e => exact ⟨e, rfl⟩
      | ok seg => exact ⟨err', rfl⟩

def Ledger.reopen (l : Ledger) : Ledger :=
  { l with handle := .opened, next := offsetAfter (lastOffset l.active.held), closed := false }

def Ledger.init : Ledger := ⟨[], .empty 1, .opened, 0, false⟩

theorem Ledger.init_ok : init.Ok :=
  ⟨pairwise_singleton .., fun e he => by cases he⟩

theorem Ledger.Ok.congr {l' : Ledger} (h : l.Ok) (hf : l'.files = l.files) : l'.Ok where
  sorted := hf ▸ h.sorted
  nonneg := by
    rw [log, hf]
    exact h.nonneg

theorem loadExistingSegments_ledger (h : l.Ok) :
    loadExistingSegments l.disk = openSegments l.disk (l.files.map Filed.id) := by
  have hids : l.disk.map Prod.fst = l.files.map Filed.id := by
    rw [disk, List.map_map]
    rfl
  have hsorted : (l.files.map Filed.id).Pairwise (· ≤ ·) := by
    rw [pairwise_map]
    exact h.sorted.imp Nat.le_of_lt
  rw [loadExistingSegments, hids, hsorted.insertionSort_eq]

section New

variable {config : Option Config} {c : Config}

theorem newWAL_init (hc : Config.checked config = .ok c) :
    newWAL config [] = .ok (init.wal c, init.disk) := by
  rw [newWAL, hc]
  rfl

theorem newWAL_ledger {l : Ledger} (hc : Config.checked config = .ok c) (h : l.Ok)
    (hr : ∀ f ∈ l.files, f.Readable) :
    newWAL config l.disk = .ok (l.reopen.wal c, l.reopen.disk) := by
  rw [newWAL, hc, loadExistingSegments_ledger h,
    openSegments_readable (fun f hf => h.read hf) hr h.nonneg]
  simp only [files, map_append, map_cons, map_nil, getLast?_concat, dropLast_concat]
  rfl

theorem newWAL_unreadable {l : Ledger} {f : Filed} {err : ReadErr} (h : l.Ok) (hf : f ∈ l.files)
    (herr : outcome (scan f.content) = .error err) : ∃ err, newWAL config l.disk = .error err := by
  obtain ⟨err', heq⟩ := openSegments_unreadable hf (h.read hf) herr
  rw [newWAL, loadExistingSegments_ledger h, heq]
  cases Config.checked config with
  | error e => exact ⟨e, rfl⟩
  | ok c => exact ⟨.read err', rfl⟩

end New

/-! ## The readers -/

/-- The offsets ascend. -/
def Ascending (es : List Entry) : Prop := es.Pairwise fun e e' => e.offset < e'.offset

theorem le_lastOffset {es : List Entry} (h : Ascending es) {e : Entry} (he : e ∈ es) :
    e.offset ≤ lastOffset es := by
  rcases eq_nil_or_concat es with rfl | ⟨init, last, rfl⟩
  · cases he
  · rw [concat_eq_append] at h he ⊢
    rw [lastOffset_concat]
    rcases mem_append.1 he with he | he
    · exact ((pairwise_append.1 h).2.2 e he last (mem_singleton_self last)).le
    · rw [mem_singleton.1 he]

theorem firstOffset_nonneg {es : List Entry} (hpos : ∀ e ∈ es, 0 ≤ e.offset) (hne : es ≠ []) :
    0 ≤ firstOffset es ∧ ∃ e ∈ es, e.offset = firstOffset es := by
  obtain ⟨e, es, rfl⟩ := exists_cons_of_ne_nil hne
  exact ⟨hpos e (mem_cons_self ..), e, mem_cons_self .., rfl⟩

section Readers

variable (hd : Filed → Handle) {s : Int} {fs : List Filed}

/-- The file has a record at the offset or after it. -/
def Filed.reaches (s : Int) (f : Filed) : Bool := f.held ≠ [] ∧ s ≤ lastOffset f.held

theorem Filed.lt_of_not_reaches (hs : Ascending f.held) (h : ¬ f.reaches s = true) :
    ∀ e ∈ f.held, e.offset < s := by
  intro e he
  have hle := le_lastOffset hs he
  simp only [reaches, ne_nil_of_mem he, ne_eq, not_false_eq_true, true_and, decide_eq_true_eq] at h
  omega

/-- Both searches find the first file that reaches the offset. -/
theorem start_eq (hs : ∀ f ∈ fs, Ascending f.held) (hpos : ∀ f ∈ fs, ∀ e ∈ f.held, 0 ≤ e.offset) :
    readStart s (fs.map fun f => f.segment (hd f)) =
        (fs.find? (·.reaches s)).map (fun f => f.segment (hd f)) ∧
      recoverStart s (fs.map fun f => f.segment (hd f)) =
        (fs.find? (·.reaches s)).map fun f => f.segment (hd f) := by
  induction fs with
  | nil => exact ⟨rfl, rfl⟩
  | cons f fs ih =>
    rw [forall_mem_cons] at hs hpos
    obtain ⟨ihread, ihrecover⟩ := ih hs.2 hpos.2
    have hstart : (f.segment (hd f)).startOffset = firstOffset f.held := rfl
    have hend : (f.segment (hd f)).endOffset = lastOffset f.held := rfl
    rw [map_cons, readStart, recoverStart, ihread, ihrecover, hstart, hend]
    by_cases hne : f.held = []
    · rw [find?_cons_of_neg (by simp [reaches, hne]), hne]
      exact ⟨rfl, rfl⟩
    · obtain ⟨hfirst, x, hx, hxo⟩ := firstOffset_nonneg hpos.1 hne
      have hle := le_lastOffset hs.1 hx
      have hne1 : firstOffset f.held ≠ -1 := by omega
      rw [if_neg hne1, if_neg hne1]
      by_cases hlast : s ≤ lastOffset f.held
      · rw [find?_cons_of_pos (by simp [reaches, hne, hlast])]
        refine ⟨?_, if_pos (.inl hlast)⟩
        split_ifs with h1 h2
        · rfl
        · rfl
        · omega
      · rw [find?_cons_of_neg (by simp [reaches, hlast])]
        exact ⟨by rw [if_neg (by omega), if_neg (by omega)],
          by rw [if_neg (by omega), if_neg (by omega)]⟩

theorem filter_eq_nil_of_lt {es : List Entry} (h : ∀ e ∈ es, e.offset < s) :
    (es.filter fun e => s ≤ e.offset) = [] := by
  rw [filter_eq_nil_iff]
  intro e he
  have := h e he
  simp only [decide_eq_true_eq]
  omega

theorem entries_append (fs gs : List Filed) : entries (fs ++ gs) = entries fs ++ entries gs :=
  flatMap_append

theorem readSegments_ledger {d : Disk} (hread : ∀ f ∈ fs, d.read f.id = some f.content)
    (hr : ∀ f ∈ fs, f.Readable) (acc : List Entry) :
    readSegments d s (fs.map fun f => f.segment (hd f)) acc =
      (acc ++ (entries fs).filter fun e => s ≤ e.offset, none) := by
  induction fs generalizing acc with
  | nil => simp [readSegments, entries]
  | cons f fs ih =>
    rw [forall_mem_cons] at hread hr
    have hf : outcome (scan f.content) = .ok f.held := hr.1
    have hid : (f.segment (hd f)).id = f.id := rfl
    rw [map_cons, readSegments, hid, hread.1, getD_some, readSegmentEntriesStream, entriesLoop_eq, hf]
    show readSegments d s (fs.map fun f => f.segment (hd f))
      (acc ++ ([] ++ f.held.filter fun e => s ≤ e.offset)) = _
    rw [ih hread.2 hr.2]
    simp [entries]

theorem recoverSegments_ledger {σ : Type} {d : Disk} {cb : RecoverCallback σ}
    (hread : ∀ f ∈ fs, d.read f.id = some f.content)
    (hr : ∀ f ∈ fs, scan f.content = items f.held ++ [.stop .eof]) (ws : List CorruptedEntryWarning)
    (st : σ) :
    recoverSegments d s cb (fs.map fun f => f.segment (hd f)) ws st =
      let r := callAll cb ((entries fs).filter fun e => s ≤ e.offset) st
      (r.1, ws, r.2.map Err.callback) := by
  induction fs generalizing ws st with
  | nil => rfl
  | cons f fs ih =>
    rw [forall_mem_cons] at hread hr
    have hid : (f.segment (hd f)).id = f.id := rfl
    have hcons : entries (f :: fs) = f.held ++ entries fs := rfl
    rw [map_cons, recoverSegments, hid, hread.1, getD_some, recoverSegmentStream, hr.1,
      recoverLoop_items, hcons, filter_append, callAll_append]
    rcases callAll cb (f.held.filter fun e => s ≤ e.offset) st with ⟨st', _ | text⟩
    · show recoverSegments d s cb (fs.map fun f => f.segment (hd f)) (ws ++ []) st' = _
      rw [append_nil, ih hread.2 hr.2]
    · show (st', ws ++ [], some (Err.callback text)) = _
      rw [append_nil]
      rfl

end Readers

section Ledger

variable {l : Ledger} {s : Int}

theorem filter_log {pre fs : List Filed} (heq : l.files = pre ++ fs)
    (hpre : ∀ e ∈ entries pre, e.offset < s) :
    (entries fs).filter (fun e => s ≤ e.offset) = l.log.filter fun e => s ≤ e.offset := by
  rw [log, heq, entries_append, filter_append, filter_eq_nil_of_lt hpre, nil_append]

variable (config : Config) (h : l.Ok)

def Ledger.handleOf (l : Ledger) (f : Filed) : Handle := if f.id = l.active.id then l.handle else .nil

include h

theorem Ledger.Ok.segments :
    (l.wal config).segments = l.files.map fun f => f.segment (l.handleOf f) := by
  rw [WAL.segments, files, map_append]
  congr 1
  · refine map_congr_left fun f hf => ?_
    rw [handleOf, if_neg (h.id_lt f hf).ne]
  · simp [wal, handleOf]

variable (hs : Ascending l.log)
include hs

theorem Ledger.Ok.start_eq :
    readStart s (l.wal config).segments =
        (l.files.find? (·.reaches s)).map (fun f => f.segment (l.handleOf f)) ∧
      recoverStart s (l.wal config).segments =
        (l.files.find? (·.reaches s)).map fun f => f.segment (l.handleOf f) := by
  rw [h.segments]
  exact Wal.start_eq l.handleOf (pairwise_flatMap.1 hs).1
    fun f hf e he => h.nonneg e (mem_flatMap_of_mem hf he)

theorem Ledger.Ok.start :
    (readStart s (l.wal config).segments = none ∧ (l.log.filter fun e => s ≤ e.offset) = []) ∨
    ∃ seg pre fs, readStart s (l.wal config).segments = some seg ∧ l.files = pre ++ fs ∧
      (l.wal config).segmentsFrom seg = fs.map (fun f => f.segment (l.handleOf f)) ∧
      ∀ e ∈ entries pre, e.offset < s := by
  have hasc : ∀ f ∈ l.files, Ascending f.held := (pairwise_flatMap.1 hs).1
  rw [(h.start_eq config hs).1]
  cases hfind : l.files.find? (·.reaches s) with
  | none =>
    refine .inl ⟨rfl, filter_eq_nil_of_lt fun e he => ?_⟩
    obtain ⟨f, hf, he⟩ := mem_flatMap.1 he
    exact f.lt_of_not_reaches (hasc f hf) (find?_eq_none.1 hfind f hf) e he
  | some f =>
    obtain ⟨-, pre, post, heq, hpre⟩ := find?_eq_some_iff_append.1 hfind
    refine .inr ⟨_, pre, f :: post, rfl, heq, ?_, fun e he => ?_⟩
    · -- the numbers before `f` are smaller than its own
      have hlt := (pairwise_append.1 (heq ▸ h.sorted)).2.2
      rw [WAL.segmentsFrom, h.segments, heq, map_append, dropWhile_append_of_pos,
        map_cons, dropWhile_cons_of_neg (by simp)]
      intro seg hseg
      obtain ⟨g, hg, rfl⟩ := mem_map.1 hseg
      have hid := hlt g hg f (mem_cons_self ..)
      show decide (g.id ≠ f.id) = true
      rw [decide_eq_true_eq]
      omega
    · obtain ⟨g, hg, he⟩ := mem_flatMap.1 he
      exact g.lt_of_not_reaches (hasc g (heq ▸ mem_append_left _ hg)) (by simpa using hpre g hg) e he

theorem readFrom_ledger (hc : l.closed = false) (hr : ∀ f ∈ l.files, f.Readable) (h0 : 0 ≤ s) :
    readFrom (l.wal config) l.disk s = (l.log.filter fun e => s ≤ e.offset, none) := by
  rw [readFrom, if_neg (by simp [wal, hc]), if_neg (by omega)]
  rcases h.start config (s := s) hs with
    ⟨hnone, hnil⟩ | ⟨seg, pre, fs, hsome, heq, hfrom, hpre⟩
  · rw [hnone, hnil]
  · have hsub : ∀ f ∈ fs, f ∈ l.files := fun f hf => heq ▸ mem_append_right pre hf
    rw [hsome]
    show readSegments l.disk s ((l.wal config).segmentsFrom seg) [] = _
    rw [hfrom, readSegments_ledger l.handleOf (fun f hf => h.read (hsub f hf))
      (fun f hf => hr f (hsub f hf)), filter_log heq hpre, nil_append]

theorem readFrom_zero (hc : l.closed = false) (hr : ∀ f ∈ l.files, f.Readable) :
    readFrom (l.wal config) l.disk 0 = (l.log, none) := by
  rw [readFrom_ledger config h hs hc hr (Int.le_refl 0),
    filter_eq_self.2 fun e he => by simpa using h.nonneg e he]

theorem recoverFrom_ledger {σ : Type} (hc : l.closed = false)
    (hr : ∀ f ∈ l.files, scan f.content = items f.held ++ [.stop .eof]) (h0 : 0 ≤ s)
    (cb : RecoverCallback σ) (st : σ) : recoverFrom (l.wal config) l.disk s (some cb) st = let r := callAll cb (l.log.filter fun e => s ≤ e.offset) st
      (r.1, [], r.2.map Err.callback) := by
  rw [recoverFrom, if_neg (by simp [wal, hc]), if_neg (by omega)]
  rw [(h.start_eq config hs).2, ← (h.start_eq config hs).1]
  rcases h.start config (s := s) hs with
    ⟨hnone, hnil⟩ | ⟨seg, pre, fs, hsome, heq, hfrom, hpre⟩
  · rw [hnone, hnil]
    rfl
  · have hsub : ∀ f ∈ fs, f ∈ l.files := fun f hf => heq ▸ mem_append_right pre hf
    rw [hsome]
    show recoverSegments l.disk s cb ((l.wal config).segmentsFrom seg) [] st = _
    rw [hfrom, recoverSegments_ledger l.handleOf (fun f hf => h.read (hsub f hf))
      (fun f hf => hr f (hsub f hf)), filter_log heq hpre]

end Ledger

end Solocoder.Wal
